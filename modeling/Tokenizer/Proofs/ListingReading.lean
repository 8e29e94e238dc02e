import Tokenizer.Highlight.Listing
import Tokenizer.Proofs.Patch
import Tokenizer.Proofs.QuotedText
import Tokenizer.Proofs.Stretch

/-!
Reading listings of highlights. A listing has a line for each coloured stretch, and dropping the
white space at its end takes away no more than the last line break. Whoever knows the language can
read the category, the span and the text of every stretch from its line.
-/
namespace Tokenizer

/-! ### Columns -/

namespace Text

theorem append_space_prefix_padTo (n : Nat) (cs : List Char) :
    cs ++ [' '] <+: padTo n cs ++ [' '] := by
  have hspaces : padTo n cs ++ [' '] = (cs ++ [' ']) ++ List.replicate (n - cs.length) ' ' := by
    rw [padTo, List.append_assoc, List.append_assoc, ← List.replicate_succ', List.replicate_succ]
    rfl
  rw [hspaces]
  exact List.prefix_append _ _

theorem newline_not_mem_padTo {n : Nat} {cs : List Char} (h : '\n' ∉ cs) :
    '\n' ∉ padTo n cs := by
  simp [padTo, h]

/-- Spaces in front of a text that starts with none can be told from the text. -/
theorem dropWhile_space_replicate (n : Nat) {cs : List Char} (h : cs.head? ≠ some ' ') :
    (List.replicate n ' ' ++ cs).dropWhile (· == ' ') = cs := by
  rw [List.dropWhile_append_of_pos (by simp)]
  cases cs with
  | nil => rfl
  | cons c cs =>
    have hc : c ≠ ' ' := by simpa using h
    simp [hc]

/-- White space that follows a visible character is dropped, and nothing else is. -/
theorem trimEnd_append {cs : List Char} {c d : Char} (hc : isBlank c = false)
    (hd : isBlank d = true) : trimEnd (cs ++ [c, d]) = cs ++ [c] := by
  simp [trimEnd, hc, hd]

/--
A text before a common ending and a space can be told from others that have no space: were one of
two such texts longer, the ending would have to hold one space more than it does.
-/
theorem eq_of_append_space_prefix {xs ys ending cs : List Char} (hys : ' ' ∉ ys)
    (hx : xs ++ (ending ++ [' ']) <+: cs) (hy : ys ++ (ending ++ [' ']) <+: cs)
    (hle : xs.length ≤ ys.length) : xs = ys := by
  have hxs : xs <+: cs := (List.prefix_append xs _).trans hx
  have hys' : ys <+: cs := (List.prefix_append ys _).trans hy
  obtain ⟨more, rfl⟩ := List.prefix_of_prefix_length_le hxs hys' hle
  obtain ⟨rest, rfl⟩ := hxs
  rw [List.append_assoc, List.prefix_append_right_inj] at hy
  rw [List.prefix_append_right_inj] at hx
  have hlong : more ++ ending <+: rest := by
    rw [← List.append_assoc] at hy
    exact (List.prefix_append _ _).trans hy
  by_cases hmore : more = []
  · rw [hmore, List.append_nil]
  · have hpos := List.length_pos_iff.2 hmore
    have hlength : (ending ++ [' ']).length ≤ (more ++ ending).length := by
      simp only [List.length_append, List.length_singleton]
      omega
    have hsub := List.prefix_of_prefix_length_le hx hlong hlength
    have hcount := hsub.sublist.count_le ' '
    have hnone : more.count ' ' = 0 := by
      apply List.count_eq_zero.2
      intro hmem
      exact hys (List.mem_append_right xs hmem)
    simp only [List.count_append, List.count_singleton_self, hnone] at hcount
    omega

end Text

/-! ### Scope names -/

/-- A scope name is not empty, and has neither a space nor a line break. -/
theorem Category.scope_unspaced (c : Category) :
    c.scope.toList ≠ [] ∧ ' ' ∉ c.scope.toList ∧ '\n' ∉ c.scope.toList := by
  have hall : ∀ c ∈ all,
      c.scope.toList ≠ [] ∧ ' ' ∉ c.scope.toList ∧ '\n' ∉ c.scope.toList := by decide +kernel
  exact hall c c.mem_all

theorem Category.eq_of_scope_eq {c d : Category} (h : c.scope = d.scope) : c = d := by
  have hall : ∀ c ∈ all, ∀ d ∈ all, c.scope = d.scope → c = d := by decide +kernel
  exact hall c c.mem_all d d.mem_all h

theorem findSome?_eq_some_of_unique {α β : Type} {f : α → Option β} {xs : List α} {a : α} {b : β}
    (ha : a ∈ xs) (hb : f a = some b) (hunique : ∀ x y, f x = some y → x = a) :
    xs.findSome? f = some b := by
  cases hfound : xs.findSome? f with
  | none =>
    have hnone := List.findSome?_eq_none_iff.1 hfound a ha
    rw [hb] at hnone
    contradiction
  | some y =>
    obtain ⟨x, -, hx⟩ := List.exists_of_findSome?_eq_some hfound
    have hxa := hunique x y hx
    rw [hxa, hb] at hx
    exact hx.symm

namespace Language

/-- The column of the scope of a category, with the space after it. -/
def scopeColumn (l : Language) (c : Category) : List Char :=
  Text.padTo 28 (l.scope c).toList ++ [' ']

def readScope? (l : Language) (cs : List Char) : Option (Category × List Char) :=
  Category.all.findSome? fun c => (cs.dropPrefix? (l.scopeColumn c)).map (c, ·)

theorem scope_prefix_scopeColumn (l : Language) (c : Category) :
    c.scope.toList ++ (l.scopeSuffix.toList ++ [' ']) <+: l.scopeColumn c := by
  have hprefix := Text.append_space_prefix_padTo 28 (l.scope c).toList
  have hscope : (l.scope c).toList = c.scope.toList ++ l.scopeSuffix.toList := by
    rw [scope, String.toList_append]
  unfold scopeColumn
  rwa [hscope, List.append_assoc, ← hscope] at hprefix

/-- No two scopes of a language start the same text, whatever the language puts after them. -/
theorem eq_of_scopeColumn_prefix {l : Language} {c d : Category} {cs : List Char}
    (hc : l.scopeColumn c <+: cs) (hd : l.scopeColumn d <+: cs) : c = d := by
  have hcs := (l.scope_prefix_scopeColumn c).trans hc
  have hds := (l.scope_prefix_scopeColumn d).trans hd
  obtain ⟨-, hspacec, -⟩ := c.scope_unspaced
  obtain ⟨-, hspaced, -⟩ := d.scope_unspaced
  apply Category.eq_of_scope_eq
  apply String.toList_injective
  rcases Nat.le_total c.scope.toList.length d.scope.toList.length with hle | hle
  · exact Text.eq_of_append_space_prefix hspaced hcs hds hle
  · exact (Text.eq_of_append_space_prefix hspacec hds hcs hle).symm

theorem readScope?_scopeColumn (l : Language) (c : Category) (rest : List Char) :
    l.readScope? (l.scopeColumn c ++ rest) = some (c, rest) := by
  unfold readScope?
  apply findSome?_eq_some_of_unique c.mem_all
  · rw [Text.dropPrefix?_append]
    rfl
  · intro d found hfound
    obtain ⟨after, hafter, -⟩ := Option.map_eq_some_iff.1 hfound
    obtain ⟨column, hcolumn, hbeq⟩ := List.dropPrefix?_eq_some_iff.1 hafter
    rw [eq_of_beq hbeq] at hcolumn
    have hd : l.scopeColumn d <+: l.scopeColumn c ++ rest := by
      rw [hcolumn]
      exact List.prefix_append _ _
    exact eq_of_scopeColumn_prefix hd (List.prefix_append _ _)

theorem head?_scopeColumn_append (l : Language) (c : Category) (rest : List Char) :
    (l.scopeColumn c ++ rest).head? ≠ some ' ' := by
  obtain ⟨hne, hspace, -⟩ := c.scope_unspaced
  obtain ⟨more, hmore⟩ := l.scope_prefix_scopeColumn c
  rw [← hmore]
  cases hscope : c.scope.toList with
  | nil => exact absurd hscope hne
  | cons x xs =>
    have hx : x ≠ ' ' := by
      intro h
      apply hspace
      rw [hscope, h]
      exact List.mem_cons_self
    simpa using hx

end Language

/-! ### Lines -/

namespace Highlight

def readLine? (l : Language) (cs : List Char) : Option (Patch × List Char) := do
  let (span, cs) ← Span.read? cs
  let (category, cs) ← l.readScope? (cs.dropWhile (· == ' '))
  let (text, cs) ← Text.unquote? cs
  if cs = [] then some (⟨category, span⟩, text) else none

def read? (l : Language) (listing : String) : Option (List (Patch × List Char)) :=
  if listing = "" then some [] else (listing.toList.splitOn '\n').mapM (readLine? l)

theorem line_eq (l : Language) (t : Token) :
    line l t = t.span.text.toList ++ (List.replicate (10 - t.span.text.toList.length + 1) ' ' ++
      (l.scopeColumn t.category ++ Text.quoted t.text)) := by
  unfold line Language.scopeColumn
  rw [Text.padTo, List.replicate_succ']
  simp only [List.append_assoc]

/-- The line of a stretch is read back. -/
theorem readLine?_line (l : Language) (t : Token) :
    readLine? l (line l t) = some (t.patch, t.text) := by
  have hspan : Span.read? (line l t) =
      some (t.span, List.replicate (10 - t.span.text.toList.length + 1) ' ' ++
        (l.scopeColumn t.category ++ Text.quoted t.text)) := by
    rw [line_eq]
    exact t.span.read?_text rfl
  have hspaces := Text.dropWhile_space_replicate (10 - t.span.text.toList.length + 1)
    (l.head?_scopeColumn_append t.category (Text.quoted t.text))
  have hscope := l.readScope?_scopeColumn t.category (Text.quoted t.text)
  have htext := Text.unquote?_quoted t.text []
  rw [List.append_nil] at htext
  unfold readLine?
  simp only [hspan, hspaces, hscope, htext, Option.bind_eq_bind, Option.bind_some]
  rfl

theorem newline_not_mem_line {l : Language} (hsuffix : '\n' ∉ l.scopeSuffix.toList) (t : Token) :
    '\n' ∉ line l t := by
  have hspan := Text.newline_not_mem_padTo (n := 10) t.span.newline_not_mem_text
  have hscope : '\n' ∉ (l.scope t.category).toList := by
    rw [Language.scope, String.toList_append, List.mem_append, not_or]
    exact ⟨t.category.scope_unspaced.2.2, hsuffix⟩
  have hcolumn := Text.newline_not_mem_padTo (n := 28) hscope
  have hquoted := Text.newline_not_mem_quoted t.text
  unfold line
  simp [hspan, hcolumn, hquoted]

/-- A line ends in a quotation mark. -/
theorem exists_line_eq_append (l : Language) (t : Token) : ∃ cs, line l t = cs ++ ['"'] := by
  unfold line Text.quoted
  rw [← List.cons_append, ← List.append_assoc]
  exact ⟨_, rfl⟩

/-! ### Listings -/

/-- Lines that end in line breaks are lines with line breaks between them, and one more. -/
theorem flatMap_newline {lines : List (List Char)} (h : lines ≠ []) :
    lines.flatMap (· ++ ['\n']) = ['\n'].intercalate lines ++ ['\n'] := by
  induction lines with
  | nil => contradiction
  | cons cs lines ih =>
    cases lines with
    | nil => simp
    | cons ds lines =>
      rw [List.flatMap_cons, ih (by simp), List.intercalate_cons_cons]
      simp only [List.append_assoc]

/-- Of the white space at the end of a listing only the last line break is dropped. -/
theorem toList_renderText_append (l : Language) {ts : List Token} (h : ts ≠ []) :
    (renderText l ts).toList ++ ['\n'] = ts.flatMap fun t => line l t ++ ['\n'] := by
  obtain ⟨before, last, rfl⟩ : ∃ before last, ts = before ++ [last] :=
    ⟨_, _, (List.dropLast_append_getLast h).symm⟩
  obtain ⟨cs, hlast⟩ := exists_line_eq_append l last
  have hlines : ((before ++ [last]).flatMap fun t => line l t ++ ['\n']) =
      ((before.flatMap fun t => line l t ++ ['\n']) ++ cs) ++ ['"', '\n'] := by
    simp [hlast]
  unfold renderText
  rw [String.toList_ofList, hlines, Text.trimEnd_append (by decide) (by decide),
    List.append_assoc _ ['"']]
  rfl

theorem toList_renderText (l : Language) (ts : List Token) :
    (renderText l ts).toList = ['\n'].intercalate (ts.map (line l)) := by
  cases ts with
  | nil => rfl
  | cons t ts =>
    have hlines := flatMap_newline (List.cons_ne_nil (line l t) (ts.map (line l)))
    have hrender := toList_renderText_append l (List.cons_ne_nil t ts)
    rw [← List.map_cons, List.flatMap_map, ← hrender] at hlines
    exact List.append_cancel_right hlines

theorem splitOn_renderText {l : Language} (hsuffix : '\n' ∉ l.scopeSuffix.toList)
    {ts : List Token} (h : ts ≠ []) :
    (renderText l ts).toList.splitOn '\n' = ts.map (line l) := by
  have hlines : ∀ cs ∈ ts.map (line l), '\n' ∉ cs := by
    intro cs hcs
    obtain ⟨t, -, rfl⟩ := List.mem_map.1 hcs
    exact newline_not_mem_line hsuffix t
  rw [toList_renderText]
  exact List.splitOn_intercalate '\n' hlines (by simpa using h)

theorem read?_renderText {l : Language} (hsuffix : '\n' ∉ l.scopeSuffix.toList)
    (ts : List Token) :
    read? l (renderText l ts) = some (ts.map fun t => (t.patch, t.text)) := by
  have hread : ∀ ts : List Token,
      (ts.map (line l)).mapM (readLine? l) = some (ts.map fun t => (t.patch, t.text)) := by
    intro ts
    induction ts with
    | nil => rfl
    | cons t ts ih => simp [readLine?_line, ih]
  by_cases hts : ts = []
  · rw [hts]
    rfl
  · have hsplit := splitOn_renderText hsuffix hts
    have hne : renderText l ts ≠ "" := by
      intro hempty
      -- an empty text is one empty line, but lines of stretches are not empty
      have hline : [] ∈ ts.map (line l) := by
        rw [← hsplit, hempty]
        decide
      obtain ⟨t, -, ht⟩ := List.mem_map.1 hline
      obtain ⟨cs, hcs⟩ := exists_line_eq_append l t
      simp [ht] at hcs
    rw [read?, if_neg hne, hsplit, hread]

/--
A listing of highlights is empty if nothing is coloured. Otherwise it has a line for each stretch:
its span in a column of 10, its scope in a column of 28 and its text in quotation marks. Dropping
the white space at the end takes away the last line break and no character of a line, whatever the
texts and the suffix of the language hold. From every line its stretch can be read, and from the
listing all of them.
-/
theorem render_text_readable (l : Language) (source : List Char) :
    (highlight source = [] → render l .text source = "") ∧
    (highlight source ≠ [] → (render l .text source).toList ++ ['\n'] =
      (highlight source).flatMap fun t => line l t ++ ['\n']) ∧
    (∀ t ∈ highlight source, t.span.slice? source = some t.text ∧
      readLine? l (line l t) = some (t.patch, t.text)) ∧
    ('\n' ∉ l.scopeSuffix.toList →
      (highlight source ≠ [] → (render l .text source).toList.splitOn '\n' =
        (highlight source).map fun t =>
          t.span.text.toList.rightpad 10 ' ' ++ [' '] ++
            (t.category.scope ++ l.scopeSuffix).toList.rightpad 28 ' ' ++ [' '] ++
            Text.quoted t.text) ∧
      read? l (render l .text source) =
        some ((highlight source).map fun t => (t.patch, t.text))) := by
  refine ⟨?_, ?_, ?_, ?_⟩
  · intro hnone
    unfold render
    simp only [hnone]
    rfl
  · intro hne
    exact toList_renderText_append l hne
  · intro t ht
    exact ⟨placedIn_highlight source t ht, readLine?_line l t⟩
  · intro hsuffix
    refine ⟨?_, read?_renderText hsuffix (highlight source)⟩
    intro hne
    exact splitOn_renderText hsuffix hne

/-- A string over two lines, in a language whose suffix holds spaces and a quotation mark. -/
theorem render_text_readable_two_lines :
    '\n' ∉ (" of \" x" : String).toList ∧
      highlight ['"', '\\', '\n', '"'] ≠ [] ∧
      read? { Language.leia with scopeSuffix := " of \" x" }
          (render { Language.leia with scopeSuffix := " of \" x" } .text ['"', '\\', '\n', '"']) =
        some [(⟨.string, ⟨0, 1⟩⟩, ['"']), (⟨.invalid, ⟨1, 2⟩⟩, ['\\']),
          (⟨.string, ⟨2, 4⟩⟩, ['\n', '"'])] := by
  have hsuffix : '\n' ∉ (" of \" x" : String).toList := by decide
  have hread := ((render_text_readable { Language.leia with scopeSuffix := " of \" x" }
    ['"', '\\', '\n', '"']).2.2.2 hsuffix).2
  refine ⟨hsuffix, by decide +kernel, ?_⟩
  rw [hread]
  decide +kernel

end Highlight
end Tokenizer
