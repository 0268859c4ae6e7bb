import LockOrder.Proofs.Outcome
import LockOrder.Report.Script

/-!
# Text and events of report scripts

The text of a script is the text of its parts in a row, up to the first fault. A writer without a
limit gets that text; a writer with a limit gets it or stops the report, but never lets it run into
a fault that the text does not have. The events come in order too, all of them if the report is
made, and the first ones of them if it ends early.

## Main definitions

* `Script.Finishes` — no fault can end a report
* `Script.events` — the events of all steps of a script

## Main results

* `Script.exists_text` — a report without faults has a text
* `Script.text_append`, `Script.text_flatMap` — the text of a script in parts
* `Script.run_none_of_text_eq_ok`, `Script.run_of_text_eq_ok` — what a writer gets
* `Script.events_run`, `Script.events_run_isPrefix` — what is logged
-/

namespace LockOrder.Script

variable {script : Script} {t : String}

/-- The text of two scripts in a row. -/
theorem text_append (first second : Script) :
    text (first ++ second) = (do return (← text first) ++ (← text second)) := by
  induction first with
  | nil =>
    cases h : text second with
    | error f => simp [text, h, bind, Except.bind]
    | ok s => simp [text, h, bind, Except.bind, pure, Except.pure]
  | cons step first ih =>
    cases step with
    | log event => exact ih
    | fault f => rfl
    | line line =>
      rw [List.cons_append, text, ih, text]
      cases text first with
      | error f => rfl
      | ok s =>
        cases text second with
        | error f => rfl
        | ok s' => simp [bind, Except.bind, pure, Except.pure, String.append_assoc]

/-- The text of a script that has a part for each element of a list. -/
theorem text_flatMap {α : Type} (xs : List α) (f : α → Script) :
    text (xs.flatMap f) = (do return String.join (← xs.mapM fun x => text (f x))) := by
  induction xs with
  | nil => rfl
  | cons x xs ih =>
    rw [List.flatMap_cons, text_append, ih, List.mapM_cons]
    cases text (f x) with
    | error f => rfl
    | ok s =>
      cases xs.mapM fun x => text (f x) with
      | error f => rfl
      | ok ss => simp [bind, Except.bind, pure, Except.pure, String.join_cons]

theorem runFrom_of_text_eq_ok (limit : Option Nat) (events : List Event) (written : String)
    (h : text script = .ok t) :
    (runFrom limit events written script).2 = .ok (written ++ t) ∨
      limit ≠ none ∧ (runFrom limit events written script).2 = .error .full := by
  induction script generalizing events written t with
  | nil =>
    obtain rfl := Except.ok.inj h
    exact .inl (by simp [runFrom])
  | cons step script ih =>
    cases step with
    | log event => exact ih (event :: events) written h
    | fault f => simp [text] at h
    | line line =>
      rw [text, Outcome.bind_eq_ok_iff] at h
      obtain ⟨rest, hrest, heq⟩ := h
      obtain rfl := Except.ok.inj heq
      have hstep := ih events (written ++ line ++ "\n") hrest
      have hassoc : written ++ (line ++ "\n" ++ rest) = written ++ line ++ "\n" ++ rest := by
        simp only [String.append_assoc]
      rw [hassoc]
      cases limit with
      | none => simpa only [runFrom] using hstep
      | some bytes =>
        by_cases hfull : bytes < (written ++ line ++ "\n").utf8ByteSize
        · exact .inr ⟨by simp, by simp only [runFrom, hfull, if_true]⟩
        · simpa only [runFrom, hfull, if_false] using hstep

/-- A writer gets the text of a script that has one, or takes no more. -/
theorem run_of_text_eq_ok (limit : Option Nat) (h : text script = .ok t) :
    (run limit script).2 = .ok t ∨ (run limit script).2 = .error .full := by
  have hrun := runFrom_of_text_eq_ok limit [] "" h
  rw [String.empty_append] at hrun
  exact hrun.imp_right And.right

/-- A writer without a limit gets the text of a script that has one. -/
theorem run_none_of_text_eq_ok (h : text script = .ok t) : (run none script).2 = .ok t := by
  have hrun := runFrom_of_text_eq_ok none [] "" h
  rw [String.empty_append] at hrun
  exact hrun.resolve_right fun hfull => hfull.1 rfl

/-- No fault ends the report: a writer without a limit gets all of its text, and a writer with a
limit gets it or takes no more. -/
def Finishes (script : Script) : Prop :=
  ∃ t, (run none script).2 = .ok t ∧
    ∀ limit, (run limit script).2 = .ok t ∨ (run limit script).2 = .error .full

theorem finishes_of_text_eq_ok (h : text script = .ok t) : Finishes script :=
  ⟨t, run_none_of_text_eq_ok h, fun limit => run_of_text_eq_ok limit h⟩

/-- A script without faults has a text. -/
theorem exists_text (h : ∀ step ∈ script, ∀ f, step ≠ .fault f) : ∃ t, text script = .ok t := by
  induction script with
  | nil => exact ⟨"", rfl⟩
  | cons step script ih =>
    obtain ⟨t, ht⟩ := ih fun step hstep => h step (List.mem_cons_of_mem _ hstep)
    cases step with
    | log event => exact ⟨t, ht⟩
    | fault f => exact absurd rfl (h _ List.mem_cons_self f)
    | line line => exact ⟨line ++ "\n" ++ t, by rw [text, ht]; rfl⟩

theorem ofLine_ne_fault {line : Except Fault String} (h : ∃ s, line = .ok s) (f : Fault) :
    Step.ofLine line ≠ .fault f := by
  obtain ⟨s, rfl⟩ := h
  exact Step.noConfusion

/-! ### Events -/

/-- The events of all steps of a script. -/
def events : Script → List Event
  | [] => []
  | .log event :: rest => event :: events rest
  | .line _ :: rest => events rest
  | .fault _ :: rest => events rest

theorem events_append (first second : Script) :
    events (first ++ second) = events first ++ events second := by
  induction first with
  | nil => rfl
  | cons step first ih => cases step <;> simp [events, ih]

theorem events_flatMap {α : Type} (xs : List α) (f : α → Script) :
    events (xs.flatMap f) = xs.flatMap fun x => events (f x) := by
  induction xs with
  | nil => rfl
  | cons x xs ih => rw [List.flatMap_cons, List.flatMap_cons, events_append, ih]

@[simp]
theorem events_ofLine (line : Except Fault String) (rest : Script) :
    events (.ofLine line :: rest) = events rest := by
  cases line <;> rfl

/-- What is logged comes after what was logged, the latest first, and is a first part of the events
of the script. If the text is made, it is all of them. -/
theorem events_runFrom (limit : Option Nat) (logged : List Event) (written : String)
    (script : Script) :
    ∃ new, new <+: script.events ∧ (runFrom limit logged written script).1 = new.reverse ++ logged ∧
      ∀ t, (runFrom limit logged written script).2 = .ok t → new = script.events := by
  induction script generalizing logged written with
  | nil => exact ⟨[], List.nil_prefix, rfl, fun _ _ => rfl⟩
  | cons step script ih =>
    cases step with
    | log event =>
      obtain ⟨new, hnew, hlogged, hall⟩ := ih (event :: logged) written
      refine ⟨event :: new, (List.prefix_cons_inj event).mpr hnew, ?_, fun t ht => ?_⟩
      · rw [runFrom, hlogged, List.reverse_cons, List.append_assoc, List.singleton_append]
      · rw [hall t ht, events]
    | fault f => exact ⟨[], List.nil_prefix, rfl, fun t ht => by cases ht⟩
    | line line =>
      have hrest := ih logged (written ++ line ++ "\n")
      cases limit with
      | none => simpa only [runFrom, events] using hrest
      | some bytes =>
        by_cases hfull : bytes < (written ++ line ++ "\n").utf8ByteSize
        · simp only [runFrom, hfull, if_true]
          exact ⟨[], List.nil_prefix, rfl, fun t ht => by cases ht⟩
        · simpa only [runFrom, hfull, if_false, events] using hrest

theorem run_fst (limit : Option Nat) (script : Script) :
    (run limit script).1 = (runFrom limit [] "" script).1.reverse := rfl

/-- A report that is made logs all events of its script. -/
theorem events_run {limit : Option Nat} (h : (run limit script).2 = .ok t) :
    (run limit script).1 = script.events := by
  obtain ⟨new, _, hlogged, hall⟩ := events_runFrom limit [] "" script
  rw [run_fst, hlogged, List.append_nil, List.reverse_reverse]
  exact hall t h

/-- A report that may end early logs the first events of its script. -/
theorem events_run_isPrefix (limit : Option Nat) (script : Script) :
    (run limit script).1 <+: script.events := by
  obtain ⟨new, hnew, hlogged, _⟩ := events_runFrom limit [] "" script
  rwa [run_fst, hlogged, List.append_nil, List.reverse_reverse]

end LockOrder.Script
