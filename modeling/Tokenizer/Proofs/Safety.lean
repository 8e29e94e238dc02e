import Tokenizer.Proofs.Cursor
import Tokenizer.Proofs.Diagnosis
import Tokenizer.Proofs.Stretch

/-!
Scanning needs no checks. On a source whose bytes can all be numbered by offsets, the functions
with checks give what those without give: no offset leaves its range, no slice falls inside a
character, and every loop ends.
-/
namespace Tokenizer

open Checked

/-! ### Steps -/

def Step.marks (s : Step) : Mark × List Mark := (s.token.mark, s.queued.map Token.mark)

theorem emit?_of_isSingle {source before rest : List Char} {s : Step} {rule : Rule}
    (hs : before ++ (s.text ++ rest) = source) (hstart : s.start = Text.width before)
    (hrule : s.rule? = some rule) (hsingle : rule.action.isSingle = true) :
    emit? source s.span rule.action = some s.marks := by
  obtain ⟨start, modes, rule?, text, rest'⟩ := s
  obtain ⟨name, pattern, action, transition⟩ := rule
  obtain rfl : start = Text.width before := hstart
  obtain rfl : rule? = some ⟨name, pattern, action, transition⟩ := hrule
  cases action with
  | emit category => rfl
  | classify shape =>
    have hslice := Span.slice?_append before text rest
    rw [hs] at hslice
    simp [emit?, Step.span, Step.stop, hslice, Step.marks, Step.token, Step.queued, Step.lexemes,
      Action.lexemes, Lexeme.place, Lexeme.layout, Token.mark, Token.span, Token.stop]
  | enclosed mark body => simp [Action.isSingle] at hsingle

/-- A match between quotes is three bytes wide at least, so both quotes can be told by offsets. -/
theorem emit?_of_enclosed {source : List Char} {s : Step} {rule : Rule} {mark category : Category}
    (hmax : s.stop ≤ Span.maxOffset) (hrule : s.rule? = some rule)
    (haction : rule.action = .enclosed mark category) {body : List Char} (hbody : body ≠ [])
    (htext : s.text = '\'' :: (body ++ ['\''])) :
    emit? source s.span rule.action = some s.marks := by
  have hquote : '\''.utf8Size = 1 := rfl
  have hpos := Text.width_pos hbody
  have hstop : s.stop = s.start + (1 + (Text.width body + 1)) := by
    simp [Step.stop, htext, hquote]
  have hlength : s.span.length? = some (s.stop - s.start) := if_pos (by simp [Step.span, hstop])
  have hadd : add? s.start 1 = some (s.start + 1) := if_pos (by omega)
  have hsub : sub? s.stop 1 = some (s.stop - 1) := if_pos (by omega)
  have hlexemes : s.lexemes = (⟨mark, ['\'']⟩, [⟨category, body⟩, ⟨mark, ['\'']⟩]) := by
    rw [Step.lexemes, hrule, htext]
    simp only [haction, Action.lexemes_enclosed mark category hbody]
  have hclose : s.stop - 1 = s.start + 1 + Text.width body := by omega
  have hend : s.stop = s.start + 1 + Text.width body + 1 := by omega
  rw [haction, emit?, hlength]
  simp only [Option.bind_eq_bind, Option.bind_some, Step.span]
  rw [if_neg (by omega), hadd, hsub, hclose, hend]
  simp [Step.marks, Step.token, Step.queued, hlexemes, Lexeme.place, Lexeme.layout, Token.mark,
    Token.span, Token.stop, hquote]

theorem emit?_step {source before cs : List Char} {c : Char}
    (hmax : Text.width source ≤ Span.maxOffset) (hs : before ++ c :: cs = source)
    {modes : ModeStack} {rule : Rule} {m : Match}
    (h : Rule.first? modes.top.rules (c :: cs) = some (rule, m)) :
    emit? source (step (Text.width before) modes c cs).span rule.action =
      some (step (Text.width before) modes c cs).marks := by
  obtain ⟨hmem, hmatch⟩ := Rule.of_first?_eq_some h
  obtain ⟨hpattern, -⟩ := Rule.match?_eq_some_iff.1 hmatch
  have hsplit := rule.pattern.match?_split hpattern
  rw [step_of_first? h]
  rcases isSingle_or_charEscape _ rule hmem with hsingle | rfl
  · exact emit?_of_isSingle (by rw [hsplit, hs]) rfl rfl hsingle
  · -- the only match that is divided stands between quotes
    obtain ⟨body, hbody, htext, -⟩ := Pattern.exists_of_match?_charEscapeLiteral hpattern
    refine emit?_of_enclosed ?_ rfl rfl hbody htext
    have hwidth := congrArg Text.width hs
    rw [← hsplit, Text.width_append, Text.width_append] at hwidth
    simp only [Step.stop]
    omega

/-! ### Marks -/

theorem token?_mark {source : List Char} {t : Token} (h : t.PlacedIn source) :
    token? source t.mark = some t := by
  have hslice : t.mark.span.slice? source = some t.text := h
  rw [token?, hslice]
  rfl

theorem mapM_token?_mark {source : List Char} {ts : List Token}
    (h : ∀ t ∈ ts, t.PlacedIn source) : (ts.map Token.mark).mapM (token? source) = some ts := by
  induction ts with
  | nil => rfl
  | cons t ts ih =>
    obtain ⟨ht, hts⟩ := List.forall_mem_cons.1 h
    simp [token?_mark ht, ih hts]

theorem fault?_mark {source : List Char} {t : Token} (h : t.PlacedIn source)
    (hlt : t.start + 1 ≤ Span.maxOffset) (mode : Mode) (opened : Nat) :
    fault? source mode opened t.mark = some (Diagnostic.ofToken? mode opened t) := by
  rw [fault?, token?_mark h]
  cases hcategory : t.category with
  | stringEscapeInvalid =>
    have hescape (c : Char) : Diagnostic.invalidEscape? t.span c opened =
        some (Diagnostic.invalidEscape t.span c opened) := if_pos hlt
    simp [Token.mark, hcategory, hescape, Diagnostic.ofToken?]
  | _ => simp [Token.mark, hcategory]

/-! ### Streams -/

namespace Stream

/-- The scan with checks that has been stopped at the same place. -/
def scanner (s : Stream) : Scanner :=
  ⟨s.source, .ofText s.source s.offset, s.modes, s.queue.map Token.mark⟩

/--
What has been read and what has not make up the source, and all tokens lie in it. This is the
invariant of a stream from which every check follows.
-/
structure Within (s : Stream) : Prop where
  split : ∃ before, before ++ s.rest = s.source ∧ Text.width before = s.offset
  placed : ∀ t ∈ s.remaining, t.PlacedIn s.source ∧ t.start < Text.width s.source

theorem within_start (modes : ModeStack) (source : List Char) : (start modes source).Within where
  split := ⟨[], rfl, rfl⟩
  placed := by
    have hpartition := partition_tokens modes source
    have hlaid := laidFrom_steps 0 modes source
    intro t ht
    have hlt := hpartition.nonempty t ht
    have hle := (hlaid.within t ht).2
    rw [flatMap_text_tokens_steps] at hle
    exact ⟨hpartition.slice t ht, by simp only [start]; omega⟩

theorem source_of_next? {s s' : Stream} {t : Token} (h : s.next? = some (t, s')) :
    s'.source = s.source := by
  obtain ⟨ts, -, rfl⟩ | ⟨c, cs, -, -, -, rfl⟩ := next?_cases h <;> rfl

theorem Within.next {s s' : Stream} {t : Token} (hs : s.Within) (h : s.next? = some (t, s')) :
    s'.Within where
  split := by
    obtain ⟨before, hsplit, hwidth⟩ := hs.split
    obtain ⟨ts, -, rfl⟩ | ⟨c, cs, -, hr, -, rfl⟩ := next?_cases h
    · exact ⟨before, hsplit, hwidth⟩
    · refine ⟨before ++ (step s.offset s.modes c cs).text, ?_, ?_⟩
      · simp only [advance, List.append_assoc, step_split, ← hsplit, hr]
      · simp only [advance, Step.stop, step_start, Text.width_append, hwidth]
  placed := by
    intro u hu
    rw [source_of_next? h]
    apply hs.placed
    rw [remaining_of_next? h]
    exact List.mem_cons_of_mem t hu

section
variable {s : Stream} (hmax : Text.width s.source ≤ Span.maxOffset)
include hmax

theorem step?_scanner {before cs : List Char} {c : Char} (hs : before ++ c :: cs = s.source)
    (hwidth : Text.width before = s.offset) (hqueue : s.queue = []) :
    s.scanner.step? =
      some ((step s.offset s.modes c cs).token.mark,
        (s.advance (step s.offset s.modes c cs)).scanner) := by
  have hfuel : Text.width s.source < s.scanner.fuel := Nat.lt_succ_self _
  have hrules := Pattern.bytewise_rules s.modes.top
  have hfirst : s.scanner.cursor.firstRule? s.scanner.fuel s.scanner.modes.top.rules =
      some ((Rule.first? s.modes.top.rules (c :: cs)).map fun found =>
        (found.1, .ofText s.source (s.offset + Text.width found.2.text))) := by
    have h := Cursor.firstRule?_text hmax hrules hfuel hs
    simp only [Cursor.ofMatch, Text.width_append, hwidth] at h
    exact h
  rw [Scanner.step?, hfirst]
  cases hfound : Rule.first? s.modes.top.rules (c :: cs) with
  | none =>
    have hstep : step s.offset s.modes c cs = ⟨s.offset, s.modes, none, [c], cs⟩ := by
      rw [step, hfound]
    have hskip : s.scanner.cursor.skipChar? =
        some (.ofText s.source (s.offset + Text.width [c])) := by
      have h := Cursor.skipChar?_text hmax hs
      simp only [Text.width_append, hwidth] at h
      exact h
    have hnil : s.scanner.queue = [] := by simp [scanner, hqueue]
    simp only [Option.map_none, Option.bind_eq_bind, Option.bind_some, hskip, hstep, hnil]
    rfl
  | some found =>
    have hemit := emit?_step hmax hs hfound
    rw [hwidth, step_of_first? hfound] at hemit
    rw [step_of_first? hfound]
    simp only [Option.map_some, Option.bind_eq_bind, Option.bind_some]
    change (emit? s.source (Step.span ⟨s.offset, s.modes, some found.1, _, found.2.rest⟩) _).bind
      _ = _
    rw [hemit]
    rfl

theorem next?_scanner (h : s.Within) :
    s.scanner.next? = some (s.next?.map fun p => (p.1.mark, p.2.scanner)) := by
  obtain ⟨before, hsplit, hwidth⟩ := h.split
  have hend := congrArg Text.width hsplit
  rw [Text.width_append, hwidth] at hend
  cases hq : s.queue with
  | cons t ts => simp [Scanner.next?, scanner, next?, hq]
  | nil =>
    have hnil : s.scanner.queue = [] := by simp [scanner, hq]
    rw [Scanner.next?, hnil]
    cases hr : s.rest with
    | nil =>
      have hatEnd : s.scanner.cursor.atEnd = true := by
        simp [Cursor.atEnd, scanner, Cursor.ofText, ← hend, hr]
      simp [hatEnd, next?, hq, hr]
    | cons c cs =>
      have hpos := c.utf8Size_pos
      have hlt : s.offset < Text.width s.source := by
        rw [← hend, hr, Text.width_cons]
        omega
      have hatEnd : s.scanner.cursor.atEnd = false := decide_eq_false (Nat.not_le.2 hlt)
      rw [hr] at hsplit
      simp [hatEnd, step?_scanner hmax hsplit hwidth hq, next?, hq, hr]

/-- All marks can be read, and then the scan with checks stands at the end too. -/
theorem exhaust?_scanner (h : s.Within) {n : Nat} (hn : s.remaining.length < n) :
    s.scanner.exhaust? n = some (s.remaining.map Token.mark, s.finish.scanner) := by
  induction n generalizing s with
  | zero => omega
  | succ n ih =>
    rw [Scanner.exhaust?, next?_scanner hmax h]
    cases hnext : s.next? with
    | none =>
      simp [next?_eq_none_iff.1 hnext, finish_of_next?_eq_none hnext]
    | some p =>
      obtain ⟨t, s'⟩ := p
      have hremaining := remaining_of_next? hnext
      rw [hremaining, List.length_cons] at hn
      have hmax' : Text.width s'.source ≤ Span.maxOffset := by rwa [source_of_next? hnext]
      have hrest := ih hmax' (h.next hnext) (by omega)
      simp [hrest, hremaining, finish_of_next? hnext]

theorem faults?_scanner (h : s.Within) {n : Nat} (hn : s.remaining.length < n) (opened : Nat) :
    s.scanner.faults? n opened = some (s.faults opened) := by
  induction n generalizing s opened with
  | zero => omega
  | succ n ih =>
    rw [Scanner.faults?, next?_scanner hmax h]
    cases hnext : s.next? with
    | none =>
      rw [faults_of_next?_eq_none hnext]
      rfl
    | some p =>
      obtain ⟨t, s'⟩ := p
      have hremaining := remaining_of_next? hnext
      have hmax' : Text.width s'.source ≤ Span.maxOffset := by rwa [source_of_next? hnext]
      obtain ⟨hplaced, hlt⟩ := h.placed t (by simp [hremaining])
      rw [hremaining, List.length_cons] at hn
      rw [faults_of_next? hnext rfl]
      have hfault (opened : Nat) : fault? s.scanner.source s.scanner.modes.top opened t.mark =
          some (Diagnostic.ofToken? s.modes.top opened t) :=
        fault?_mark hplaced (by omega) s.modes.top opened
      have hrest := ih hmax' (h.next hnext) (by omega)
      -- both functions renew the place of the innermost region before they look at the token
      simp only [Option.map_some, Option.bind_eq_bind, Option.bind_some, hfault, hrest]
      rfl

end

end Stream

/-! ### Characters -/

namespace Text

theorem charsBefore_cons (n : Nat) (c : Char) (cs : List Char) :
    charsBefore n (c :: cs) = if n = 0 then 0 else charsBefore (n - c.utf8Size) cs + 1 := by
  cases n <;> rfl

theorem charsBefore_min_width (n : Nat) (cs : List Char) :
    charsBefore (min n (width cs)) cs = charsBefore n cs := by
  induction cs generalizing n with
  | nil => cases n <;> rfl
  | cons c cs ih =>
    have hpos := c.utf8Size_pos
    have hzero : min n (width (c :: cs)) = 0 ↔ n = 0 := by
      rw [width_cons]
      omega
    have hsub : min n (width (c :: cs)) - c.utf8Size = min (n - c.utf8Size) (width cs) := by
      rw [width_cons]
      omega
    simp only [charsBefore_cons, hzero, hsub, ih]

end Text

theorem length_takeWhile_charIndices (stop offset : Nat) (cs : List Char) :
    ((charIndices offset cs).takeWhile (·.1 < stop)).length =
      Text.charsBefore (stop - offset) cs := by
  induction cs generalizing offset with
  | nil => cases stop - offset <;> rfl
  | cons c cs ih =>
    rw [charIndices, Text.charsBefore_cons, Nat.sub_sub, ← ih]
    by_cases hlt : offset < stop
    · have hne : stop - offset ≠ 0 := by omega
      simp [hlt, hne]
    · have hzero : stop - offset = 0 := by omega
      simp [hlt, hzero]

/-- Characters that are counted one by one are those before the byte. -/
theorem charOffset_eq (source : List Char) (byte : Nat) :
    charOffset source byte = Text.charsBefore byte source := by
  rw [charOffset, length_takeWhile_charIndices, Nat.sub_zero, Text.charsBefore_min_width]

/-! ### Stretches -/

theorem map_mark_joinTo (t : Token) (us : List Token) :
    (t.joinTo us).map Token.mark = joinTo t.mark (us.map Token.mark) := by
  cases us with
  | nil => rfl
  | cons u us =>
    have hjoins : (t.mark.category == u.mark.category && t.mark.span.stop == u.mark.span.start) =
        t.joins u := rfl
    rw [Token.joinTo, List.map_cons, joinTo, hjoins]
    split
    · rename_i h
      have hspan := Token.span_join (Token.stop_eq_of_joins h)
      rw [List.map_cons, Token.mark, hspan]
      rfl
    · rfl

theorem map_mark_coalesce (ts : List Token) :
    (coalesce ts).map Token.mark = (ts.map Token.mark).foldr joinTo [] := by
  induction ts with
  | nil => rfl
  | cons t ts ih =>
    rw [List.map_cons, List.foldr_cons, ← ih]
    exact map_mark_joinTo t (coalesce ts)

/-! ### The results -/

section
variable {source : List Char} (hmax : Text.width source ≤ Span.maxOffset)
include hmax

theorem scanner_start (modes : ModeStack) :
    (Stream.start modes source).scanner = Scanner.start modes source := by
  rw [Scanner.start, Cursor.start_eq hmax]
  rfl

theorem length_tokens_lt_fuel (modes : ModeStack) :
    (Stream.start modes source).remaining.length < (Scanner.start modes source).fuel := by
  have hle := (partition_tokens modes source).length_le
  rw [← scanner_start hmax]
  exact Nat.lt_succ_of_le hle

theorem readLine?_eq (modes : ModeStack) :
    readLine? modes source =
      some ((tokens modes source).map Token.mark, finalModes modes source) := by
  have hwithin := Stream.within_start modes source
  have hexhaust := Stream.exhaust?_scanner hmax hwithin (length_tokens_lt_fuel hmax modes)
  rw [scanner_start hmax] at hexhaust
  rw [readLine?, hexhaust]
  rfl

theorem highlight?_eq : highlight? source = some ((highlight source).map Token.mark) := by
  rw [highlight?, readLine?_eq hmax]
  have hfilter : ((tokens {} source).map Token.mark).filter (!·.category.isTrivia) =
      (significant (tokens {} source)).map Token.mark := List.filter_map
  simp only [Option.bind_eq_bind, Option.bind_some, hfilter, ← map_mark_coalesce]
  rfl

theorem diagnose?_eq : diagnose? source = some (diagnose source) := by
  have hwithin := Stream.within_start {} source
  have hfaults := Stream.faults?_scanner hmax hwithin (length_tokens_lt_fuel hmax {}) 0
  rw [scanner_start hmax, Stream.start, Stream.faults_eq_ofSteps, Nat.zero_add] at hfaults
  exact hfaults

/--
A source whose bytes can all be numbered by offsets is read without a fault of the reader. Every
sum and difference of offsets stays in its range, every slice lies between characters of the
source, every loop ends, and what comes out is what reading without checks gives: the marks and
modes of a line that starts in any modes, the coloured stretches and their scopes in any language,
the faults, the listings with the texts of all tokens, and the characters that reports point at.
-/
theorem checked_eq_some (modes : ModeStack) (l : Language) (path : String) :
    readLine? modes source =
      some ((Line.read modes source).tokens.map Token.mark, (Line.read modes source).modes) ∧
    highlight? source = some ((highlight source).map Token.mark) ∧
    scopedSpans? l source = some (scopedSpans l source) ∧
    renderText? l source = some (Highlight.render l .text source) ∧
    dump? path source = some (Dump.render path source) ∧
    diagnose? source = some (diagnose source) ∧
    faultRanges? source = some ((reports path source (diagnose source)).map Report.range) := by
  refine ⟨readLine?_eq hmax modes, highlight?_eq hmax, ?_, ?_, ?_, diagnose?_eq hmax, ?_⟩
  · rw [scopedSpans?, highlight?_eq hmax, scopedSpans]
    simp only [Option.bind_eq_bind, Option.bind_some, List.map_map]
    rfl
  · rw [renderText?, highlight?_eq hmax]
    simp only [Option.bind_eq_bind, Option.bind_some, mapM_token?_mark (placedIn_highlight source)]
    rfl
  · rw [dump?, readLine?_eq hmax]
    simp only [Option.bind_eq_bind, Option.bind_some, mapM_token?_mark (placedIn_tokens {} source)]
    rfl
  · rw [faultRanges?, diagnose?_eq hmax, reports, List.map_map]
    simp only [Option.bind_eq_bind, Option.bind_some, charOffset_eq]
    rfl

end

/-- A character literal that is divided, and an unknown escape in a string. -/
theorem checked_eq_some_escapes :
    Text.width ['\'', '\\', 'n', '\'', '"', '\\', 'q', '"'] ≤ Span.maxOffset ∧
      (diagnose? ['\'', '\\', 'n', '\'', '"', '\\', 'q', '"']).map (·.map Diagnostic.span) =
        some [⟨5, 7⟩] ∧
      diagnose? ['\'', '\\', 'n', '\'', '"', '\\', 'q', '"'] =
        some (diagnose ['\'', '\\', 'n', '\'', '"', '\\', 'q', '"']) := by
  have hmax : Text.width ['\'', '\\', 'n', '\'', '"', '\\', 'q', '"'] ≤ Span.maxOffset := by decide
  obtain ⟨-, -, -, -, -, hdiagnose, -⟩ := checked_eq_some hmax {} .leia "a.leia"
  exact ⟨hmax, by decide +kernel, hdiagnose⟩

end Tokenizer
