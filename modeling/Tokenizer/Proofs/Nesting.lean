import Tokenizer.Log
import Tokenizer.Proofs.Region
import Tokenizer.Stream

/-!
The open regions over a whole run. A step keeps the open regions, enters one from code or leaves
the innermost one, and reports what it does. So a stream never goes deeper than the regions it
started in, or than one region in code, and what it has reported tells which regions are open.
-/
namespace Tokenizer

/-- What a step may do to the open regions, and what it reports. -/
inductive ModeChange : ModeStack → Option Event → ModeStack → Prop
  | silent (modes : ModeStack) : ModeChange modes none modes
  | unmatched (modes : ModeStack) (span : Span) :
      ModeChange modes (some (.unmatched modes.top span)) modes
  | entered (rule : String) (region : Region) :
      ModeChange {} (some (.entered rule region 1)) (ModeStack.enter {} region)
  | left (rule : String) (region : Region) (modes : ModeStack) :
      ModeChange (modes.enter region) (some (.left rule region)) modes

/-- The transition of the rule that a step applies goes through on the stack that it meets. -/
def Step.Succeeds (s : Step) : Prop :=
  match s.rule?.map Rule.transition with
  | some (.push region) => s.modes.push? (.inside region) = some s.after
  | some .pop => ∃ mode, s.modes.pop? = some (mode, s.after)
  | some .stay | none => s.after = s.modes

theorem modeChange_of_root (start : Nat) (c : Char) (cs : List Char) :
    ModeChange {} (step start {} c cs).event? (step start {} c cs).after ∧
      (step start {} c cs).Succeeds := by
  rcases step_cases start {} c cs with ⟨rule, m, hmem, -, hstep⟩ | hstep
  · have hpop : rule.transition ≠ .pop := transition_ne_pop_of_mem_rootRules rule hmem
    rw [hstep]
    cases ht : rule.transition with
    | stay =>
      simp only [Step.event?, Step.after, Step.Succeeds, ht, Transition.apply, Option.map_some]
      exact ⟨.silent {}, trivial⟩
    | push region =>
      simp only [Step.event?, Step.after, Step.Succeeds, ht, Transition.apply, Option.map_some]
      exact ⟨.entered rule.name region, rfl⟩
    | pop => exact absurd ht hpop
  · rw [hstep]
    exact ⟨.unmatched {} _, rfl⟩

theorem modeChange_of_inside (start : Nat) (region : Region) (regions : List Region) (c : Char)
    (cs : List Char) :
    ModeChange ⟨region :: regions⟩ (step start ⟨region :: regions⟩ c cs).event?
        (step start ⟨region :: regions⟩ c cs).after ∧
      (step start ⟨region :: regions⟩ c cs).Succeeds := by
  rcases step_cases start ⟨region :: regions⟩ c cs with ⟨rule, m, hmem, -, hstep⟩ | hstep
  · rw [hstep]
    rcases transition_of_mem_insideRules region rule hmem with ht | ht
    · simp only [Step.event?, Step.after, Step.Succeeds, ht, Transition.apply, Option.map_some]
      exact ⟨.silent _, trivial⟩
    · simp only [Step.event?, Step.after, Step.Succeeds, ht, Transition.apply, Option.map_some]
      exact ⟨.left rule.name region ⟨regions⟩, .inside region, rfl⟩
  · rw [hstep]
    exact ⟨.unmatched _ _, rfl⟩

/-- All that a step can do to the open regions. -/
theorem modeChange_step (start : Nat) (modes : ModeStack) (c : Char) (cs : List Char) :
    ModeChange modes (step start modes c cs).event? (step start modes c cs).after ∧
      (step start modes c cs).Succeeds := by
  obtain ⟨regions⟩ := modes
  cases regions with
  | nil => exact modeChange_of_root start c cs
  | cons region regions => exact modeChange_of_inside start region regions c cs

/-! ### What a stream reports -/

namespace Stream

/-- What asking for the next token reports. A token from the queue is given without a report. -/
def nextEvent? (s : Stream) : Option Event :=
  match s.queue, s.rest with
  | [], c :: cs => (step s.offset s.modes c cs).event?
  | _, _ => none

def events : Nat → Stream → List Event
  | 0, _ => []
  | n + 1, s =>
    match s.next? with
    | none => []
    | some (_, next) => s.nextEvent?.toList ++ events n next

theorem take_of_next? {s next : Stream} {t : Token} (h : s.next? = some (t, next)) (n : Nat) :
    (s.take (n + 1)).2 = (next.take n).2 := by
  rw [take, h]

theorem events_of_next? {s next : Stream} {t : Token} (h : s.next? = some (t, next)) (n : Nat) :
    s.events (n + 1) = s.nextEvent?.toList ++ next.events n := by
  rw [events, h]

theorem take_of_next?_eq_none {s : Stream} (h : s.next? = none) (n : Nat) :
    s.take n = ([], s) := by
  cases n with
  | zero => rfl
  | succ n => rw [take, h]

theorem events_of_next?_eq_none {s : Stream} (h : s.next? = none) (n : Nat) :
    s.events n = [] := by
  cases n with
  | zero => rfl
  | succ n => rw [events, h]

theorem modeChange_of_next? {s next : Stream} {t : Token} (h : s.next? = some (t, next)) :
    ModeChange s.modes s.nextEvent? next.modes := by
  obtain ⟨ts, hq, rfl⟩ | ⟨c, cs, hq, hr, -, rfl⟩ := next?_cases h
  · simp only [nextEvent?, hq]
    exact .silent s.modes
  · simp only [nextEvent?, hq, hr, advance]
    exact (modeChange_step s.offset s.modes c cs).1

/-- Asked for all its tokens, a stream reports what the scan of its source reports. -/
theorem events_eq_filterMap {n : Nat} {s : Stream} (h : s.remaining.length ≤ n) :
    s.events n = (steps s.offset s.modes s.rest).filterMap Step.event? := by
  induction n generalizing s with
  | zero =>
    have hnil : s.remaining = [] := List.eq_nil_of_length_eq_zero (by omega)
    have hrest : s.rest = [] := by
      have htext := flatMap_text_tokens_steps s.offset s.modes s.rest
      rw [(List.append_eq_nil_iff.1 hnil).2] at htext
      exact htext.symm
    rw [hrest, steps_nil]
    rfl
  | succ n ih =>
    cases hq : s.queue with
    | cons u us =>
      have hnext : s.next? = some (u, { s with queue := us }) := by simp [next?, hq]
      have hlen := remaining_of_next? hnext
      rw [hlen, List.length_cons] at h
      rw [events_of_next? hnext, nextEvent?, hq]
      exact ih (by omega)
    | nil =>
      cases hr : s.rest with
      | nil => simp [events, next?, hq, hr]
      | cons c cs =>
        have hnext : s.next? = some ((step s.offset s.modes c cs).token,
            s.advance (step s.offset s.modes c cs)) := by simp [next?, hq, hr]
        have hlen := remaining_of_next? hnext
        rw [hlen, List.length_cons] at h
        have hrest : events n (s.advance (step s.offset s.modes c cs)) =
            (steps (step s.offset s.modes c cs).stop (step s.offset s.modes c cs).after
              (step s.offset s.modes c cs).rest).filterMap Step.event? := ih (by omega)
        rw [events_of_next? hnext, hrest, nextEvent?, hq, hr, steps_cons]
        cases hevent : (step s.offset s.modes c cs).event? <;> simp [hevent]

end Stream

/-! ### How deep a stream goes -/

namespace ModeStack

/-- The modes are a part of those of `first`, from the floor up, or the root mode and one region. -/
def Within (first modes : ModeStack) : Prop :=
  modes.toList <+: first.toList ∨ ∃ region, modes.toList = [.root, .inside region]

theorem toList_prefix_enter (modes : ModeStack) (region : Region) :
    modes.toList <+: (modes.enter region).toList := by
  rw [toList_enter]
  exact List.prefix_append _ _

theorem Within.change {first modes after : ModeStack} {event? : Option Event}
    (h : Within first modes) (hchange : ModeChange modes event? after) : Within first after := by
  cases hchange with
  | silent => exact h
  | unmatched => exact h
  | entered rule region => exact .inr ⟨region, rfl⟩
  | left rule region =>
    rcases h with hprefix | ⟨only, honly⟩
    · exact .inl ((toList_prefix_enter after region).trans hprefix)
    · -- the region that is left was the only one
      have hlen := congrArg List.length honly
      rw [toList_enter, List.length_append, length_toList, depth] at hlen
      have hnil : after.regions = [] := List.eq_nil_of_length_eq_zero (by simpa using hlen)
      have hroot : after.toList = [.root] := by simp [toList, hnil]
      left
      rw [hroot]
      exact ⟨first.regions.reverse.map .inside, rfl⟩

theorem Within.depth_le {first modes : ModeStack} (h : Within first modes) :
    modes.depth ≤ max first.depth 2 := by
  rw [← length_toList, ← length_toList]
  rcases h with hprefix | ⟨region, hlist⟩
  · have hle := hprefix.length_le
    omega
  · simp only [hlist, List.length_cons, List.length_nil]
    omega

end ModeStack

/-! ### Reports replayed -/

/-- The stack after the change that an event reports, if the event fits the stack. -/
def Event.replay? (modes : ModeStack) : Event → Option ModeStack
  | entered _ region depth => if depth = modes.depth then modes.push? (.inside region) else none
  | left _ region => (modes.pop?.filter (·.1 == .inside region)).map Prod.snd
  | _ => some modes

def replay? (modes : ModeStack) (events : List Event) : Option ModeStack :=
  events.foldlM Event.replay? modes

theorem replay?_append (modes : ModeStack) (xs ys : List Event) :
    replay? modes (xs ++ ys) = (replay? modes xs).bind (replay? · ys) :=
  List.foldlM_append

theorem ModeChange.replay?_eq {modes after : ModeStack} {event? : Option Event}
    (h : ModeChange modes event? after) : replay? modes event?.toList = some after := by
  cases h with
  | silent => rfl
  | unmatched => rfl
  | entered rule region => rfl
  | left rule region => simp [replay?, Event.replay?, ModeStack.pop?, ModeStack.enter,
      ModeStack.leave, Option.filter]

theorem ModeChange.nothingToLeave_notMem {modes after : ModeStack} {event? : Option Event}
    (h : ModeChange modes event? after) (rule : String) :
    .nothingToLeave rule ∉ event?.toList := by
  cases h <;> simp

/--
The events open regions and close them in turn, and each time the region that was opened last.
At first the given region is open, if any.
-/
def Alternate : Option Region → List Event → Prop
  | _, [] => True
  | none, .entered _ region depth :: events => depth = 1 ∧ Alternate (some region) events
  | some opened, .left _ region :: events => region = opened ∧ Alternate none events
  | opened, .unmatched _ _ :: events => Alternate opened events
  | _, _ :: _ => False

theorem Alternate.of_change {modes after : ModeStack} {event? : Option Event}
    (hchange : ModeChange modes event? after) (hdepth : modes.depth ≤ 2) {events : List Event}
    (h : Alternate after.regions.head? events) :
    Alternate modes.regions.head? (event?.toList ++ events) := by
  cases hchange with
  | silent => exact h
  | unmatched =>
    cases hhead : modes.regions.head? <;> simpa [Alternate, hhead] using h
  | entered rule region => exact ⟨rfl, h⟩
  | left rule region =>
    have hnil : after.regions = [] := by
      apply List.eq_nil_of_length_eq_zero
      simp only [ModeStack.depth, ModeStack.enter, List.length_cons] at hdepth
      omega
    rw [hnil] at h
    exact ⟨rfl, h⟩

/-! ### Whole runs -/

namespace Stream

/-- The stack of a stream, however many tokens have been asked for. -/
theorem within_take {first : ModeStack} {s : Stream} (h : first.Within s.modes) (n : Nat) :
    first.Within (s.take n).2.modes := by
  induction n generalizing s with
  | zero => exact h
  | succ n ih =>
    cases hnext : s.next? with
    | none =>
      rw [take_of_next?_eq_none hnext]
      exact h
    | some found =>
      rw [take_of_next? hnext]
      exact ih (h.change (modeChange_of_next? hnext))

theorem replay?_events (s : Stream) (n : Nat) :
    replay? s.modes (s.events n) = some (s.take n).2.modes := by
  induction n generalizing s with
  | zero => rfl
  | succ n ih =>
    cases hnext : s.next? with
    | none =>
      rw [take_of_next?_eq_none hnext, events_of_next?_eq_none hnext]
      rfl
    | some found =>
      rw [take_of_next? hnext, events_of_next? hnext, replay?_append,
        (modeChange_of_next? hnext).replay?_eq, Option.bind_some]
      exact ih found.2

theorem nothingToLeave_notMem_events (s : Stream) (n : Nat) (rule : String) :
    .nothingToLeave rule ∉ s.events n := by
  induction n generalizing s with
  | zero => simp [events]
  | succ n ih =>
    cases hnext : s.next? with
    | none => simp [events_of_next?_eq_none hnext]
    | some found =>
      rw [events_of_next? hnext, List.mem_append, not_or]
      exact ⟨(modeChange_of_next? hnext).nothingToLeave_notMem rule, ih found.2⟩

/-- From a fresh stack, regions are opened and closed in turn. -/
theorem alternate_events {s : Stream} (h : ModeStack.Within {} s.modes) (n : Nat) :
    Alternate s.modes.regions.head? (s.events n) := by
  induction n generalizing s with
  | zero => simp [events, Alternate]
  | succ n ih =>
    cases hnext : s.next? with
    | none => simp [events_of_next?_eq_none hnext, Alternate]
    | some found =>
      have hchange := modeChange_of_next? hnext
      rw [events_of_next? hnext]
      exact .of_change hchange h.depth_le (ih (h.change hchange))

end Stream

/--
However many tokens have been asked for, the modes of a stream are a part, from the floor up, of
those it started in, or the root mode and one region. Every transition that a rule asks for goes
through, and what the stream has reported so far, replayed from the start, gives its modes.
-/
theorem take_start_modes (modes : ModeStack) (source : List Char) (n : Nat) :
    let now := ((Stream.start modes source).take n).2.modes
    let events := (Stream.start modes source).events n
    (now.toList <+: modes.toList ∨ ∃ region, now.toList = [.root, .inside region]) ∧
    now.toList.head? = some .root ∧
    (∀ mode ∈ now.toList.tail, mode ≠ .root ∧ mode ≠ .whitespace) ∧
    now.depth ≤ max modes.depth 2 ∧
    (∀ s ∈ scan modes source, s.Succeeds) ∧
    (∀ rule, .nothingToLeave rule ∉ events) ∧
    replay? modes events = some now ∧
    Alternate none ((Stream.start {} source).events n) ∧
    ((tokens modes source).length ≤ n → events = scanEvents modes source) := by
  intro now events
  have hwithin : modes.Within now :=
    Stream.within_take (s := .start modes source) (.inl (List.prefix_rfl)) n
  refine ⟨hwithin, rfl, ?_, hwithin.depth_le, ?_, ?_, ?_, ?_, ?_⟩
  · intro mode hmode
    obtain ⟨region, -, rfl⟩ := List.mem_map.1 hmode
    exact ⟨Mode.noConfusion, Mode.noConfusion⟩
  · intro s hs
    obtain ⟨before, after, hscan⟩ := List.append_of_mem hs
    obtain ⟨c, rest, -, hstep, -⟩ := steps_eq_append_cons hscan
    rw [hstep]
    exact (modeChange_step _ _ c rest).2
  · exact Stream.nothingToLeave_notMem_events _ n
  · exact Stream.replay?_events (.start modes source) n
  · exact Stream.alternate_events (s := .start {} source) (.inl List.prefix_rfl) n
  · intro hn
    exact Stream.events_eq_filterMap hn

end Tokenizer
