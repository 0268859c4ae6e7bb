import LockOrder.Proofs.Recorder.Ledger

/-!
# Interleavings

A call of a thread reads and changes the locks that the thread holds, and adds to the log; it does
not look at other threads. So two calls of different threads can change places: the same locks are
held afterwards, and the log has the same entries in another order. Two runs in which every thread
makes the same calls in the same order therefore lead to accounts that agree.

## Main definitions

* `Call.thread?` — the thread that makes a call
* `Ledger.Agrees` — accounts that differ in the order of their entries only

## Main results

* `Ledger.agrees_step_step` — calls of different threads can change places
* `Ledger.agrees_of_same_threads` — only the calls of each thread matter
-/

namespace LockOrder

/-- The thread that makes a call. -/
def Call.thread? : Call → Option Nat
  | .acquire thread _ _ | .acquireLabeled thread _ _ _ _ | .mayAcquire thread _ _
  | .release thread _ => some thread
  | .name _ _ | .intern _ => none

namespace Ledger

variable {l l' l'' : Ledger} {a b call : Call} {s t : Nat} {calls calls' : List Call}

/-- Accounts that differ in the order of their entries only. -/
structure Agrees (l l' : Ledger) : Prop where
  /-- The labels of locks are the same. -/
  names_eq : l.names = l'.names
  /-- The same locks are held. -/
  held_eq : l.held = l'.held
  /-- The same labels were taken, in any order. -/
  taken_perm : l.taken.Perm l'.taken
  /-- The logs have the same entries, in any order. -/
  log_perm : l.log.Perm l'.log

theorem Agrees.refl (l : Ledger) : l.Agrees l := ⟨rfl, rfl, .refl _, .refl _⟩

theorem Agrees.trans (h : l.Agrees l') (h' : l'.Agrees l'') : l.Agrees l'' :=
  ⟨h.names_eq.trans h'.names_eq, h.held_eq.trans h'.held_eq, h.taken_perm.trans h'.taken_perm,
    h.log_perm.trans h'.log_perm⟩

theorem Agrees.symm (h : l.Agrees l') : l'.Agrees l :=
  ⟨h.names_eq.symm, h.held_eq.symm, h.taken_perm.symm, h.log_perm.symm⟩

/-! ### What a call of a thread reads and changes -/

theorem namesAfter_of_thread (h : call.thread? = some t) : l.namesAfter call = l.names := by
  cases call with
  | name lock label => cases h
  | _ => rfl

/-- A call leaves the locks of other threads alone. -/
theorem heldAfter_of_ne (h : call.thread? = some t) (hne : s ≠ t) :
    l.heldAfter call s = l.held s := by
  cases call with
  | name lock label => cases h
  | intern frames => cases h
  | mayAcquire thread lock stack => rfl
  | _ =>
    obtain rfl := Option.some.inj h
    exact Function.update_of_ne hne _ _

/-- What a thread takes depends on the labels of locks and on what the thread holds. -/
theorem acquisition?_congr (h : call.thread? = some t) (hnames : l.names = l'.names)
    (hheld : l.held t = l'.held t) : l.acquisition? call = l'.acquisition? call := by
  have hlabel : ∀ lock, l.labelOf lock = l'.labelOf lock := fun lock => by
    rw [labelOf, hnames, labelOf]
  cases call with
  | mayAcquire thread lock stack =>
    obtain rfl := Option.some.inj h
    simp only [acquisition?, hheld, hlabel]
  | acquire thread lock stack => simp only [acquisition?, hlabel]
  | _ => rfl

theorem thread_of_acquisition? {new : Holding} (h : call.thread? = some t)
    (hnew : l.acquisition? call = some (s, new)) : s = t := by
  cases call with
  | mayAcquire thread lock stack =>
    obtain rfl := Option.some.inj h
    simp only [acquisition?] at hnew
    split at hnew
    · cases hnew
    · exact (congrArg Prod.fst (Option.some.inj hnew)).symm
  | acquire thread lock stack => cases h; cases hnew; rfl
  | acquireLabeled thread lock stack label rank => cases h; cases hnew; rfl
  | release thread lock => cases hnew
  | name lock label => cases hnew
  | intern frames => cases hnew

theorem sightings_congr (h : call.thread? = some t) (hnames : l.names = l'.names)
    (hheld : l.held t = l'.held t) : l.sightings call = l'.sightings call := by
  unfold sightings
  rw [← acquisition?_congr h hnames hheld]
  cases hnew : l.acquisition? call with
  | none => rfl
  | some entry =>
    obtain ⟨thread, new⟩ := entry
    obtain rfl := thread_of_acquisition? h hnew
    simp only [hheld]

theorem heldAfter_congr (h : call.thread? = some t) (hnames : l.names = l'.names)
    (hheld : l.held t = l'.held t) : l.heldAfter call t = l'.heldAfter call t := by
  have hlabel : ∀ lock, l.labelOf lock = l'.labelOf lock := fun lock => by
    rw [labelOf, hnames, labelOf]
  cases call with
  | name lock label => cases h
  | intern frames => cases h
  | mayAcquire thread lock stack => exact hheld
  | acquire thread lock stack =>
    obtain rfl := Option.some.inj h
    simp [heldAfter, hheld, hlabel]
  | acquireLabeled thread lock stack label rank =>
    obtain rfl := Option.some.inj h
    simp [heldAfter, hheld]
  | release thread lock =>
    obtain rfl := Option.some.inj h
    simp [heldAfter, hheld]

/-! ### Runs that agree -/

/-- A call of a thread leads from accounts that agree to accounts that agree. -/
theorem Agrees.step (h : l.Agrees l') (hcall : call.thread? = some t) :
    (l.step call).Agrees (l'.step call) := by
  have hheld := congrFun h.held_eq t
  constructor
  · change l.namesAfter call = l'.namesAfter call
    rw [namesAfter_of_thread hcall, namesAfter_of_thread hcall, h.names_eq]
  · funext u
    change l.heldAfter call u = l'.heldAfter call u
    by_cases hu : u = t
    · rw [hu, heldAfter_congr hcall h.names_eq hheld]
    · rw [heldAfter_of_ne hcall hu, heldAfter_of_ne hcall hu, h.held_eq]
  · change (l.taken ++ _).Perm (l'.taken ++ _)
    rw [acquisition?_congr hcall h.names_eq hheld]
    exact h.taken_perm.append_right _
  · change (l.log ++ _).Perm (l'.log ++ _)
    rw [sightings_congr hcall h.names_eq hheld]
    exact h.log_perm.append_right _

theorem Agrees.foldl (h : l.Agrees l') (hcalls : ∀ call ∈ calls, ∃ t, call.thread? = some t) :
    (calls.foldl Ledger.step l).Agrees (calls.foldl Ledger.step l') := by
  induction calls generalizing l l' with
  | nil => exact h
  | cons call calls ih =>
    obtain ⟨⟨t, ht⟩, hrest⟩ := List.forall_mem_cons.mp hcalls
    exact ih (h.step ht) hrest

/-- Calls of different threads can change places. -/
theorem agrees_step_step (l : Ledger) (ha : a.thread? = some s) (hb : b.thread? = some t)
    (hne : s ≠ t) : ((l.step a).step b).Agrees ((l.step b).step a) := by
  -- after one call, the other reads what it read before
  have hnames : ∀ {call u}, call.thread? = some u → (l.step call).names = l.names :=
    namesAfter_of_thread
  have hbt : (l.step a).held t = l.held t := heldAfter_of_ne ha hne.symm
  have has : (l.step b).held s = l.held s := heldAfter_of_ne hb hne
  constructor
  · change (l.step a).namesAfter b = (l.step b).namesAfter a
    rw [namesAfter_of_thread hb, namesAfter_of_thread ha, hnames ha, hnames hb]
  · funext u
    change (l.step a).heldAfter b u = (l.step b).heldAfter a u
    by_cases hut : u = t
    · subst hut
      rw [heldAfter_congr hb (hnames ha) hbt, heldAfter_of_ne ha hne.symm]
      rfl
    · rw [heldAfter_of_ne hb hut]
      by_cases hus : u = s
      · subst hus
        rw [heldAfter_congr ha (hnames hb) has]
        rfl
      · rw [heldAfter_of_ne ha hus]
        exact (heldAfter_of_ne ha hus).trans (heldAfter_of_ne hb hut).symm
  · change (l.taken ++ _ ++ _).Perm (l.taken ++ _ ++ _)
    rw [acquisition?_congr hb (hnames ha) hbt, acquisition?_congr ha (hnames hb) has,
      List.append_assoc, List.append_assoc]
    exact List.perm_append_comm.append_left _
  · change (l.log ++ _ ++ _).Perm (l.log ++ _ ++ _)
    rw [sightings_congr hb (hnames ha) hbt, sightings_congr ha (hnames hb) has,
      List.append_assoc, List.append_assoc]
    exact List.perm_append_comm.append_left _

/-- A call can be made before calls of other threads. -/
theorem agrees_of_earlier {before after : List Call} (hcall : call.thread? = some t)
    (hbefore : ∀ c ∈ before, ∃ s, c.thread? = some s ∧ s ≠ t)
    (hafter : ∀ c ∈ after, ∃ s, c.thread? = some s) (l : Ledger) :
    ((before ++ call :: after).foldl step l).Agrees
      ((before ++ after).foldl step (l.step call)) := by
  induction before generalizing l with
  | nil => exact .refl _
  | cons c before ih =>
    obtain ⟨⟨s, hs, hne⟩, hrest⟩ := List.forall_mem_cons.mp hbefore
    refine (ih hrest (l.step c)).trans ?_
    refine (agrees_step_step l hs hcall hne).foldl fun c' hc' => ?_
    rcases List.mem_append.mp hc' with hc' | hc'
    · exact (hrest c' hc').imp fun _ => And.left
    · exact hafter c' hc'

/-- The calls that a thread makes. -/
def callsOf (calls : List Call) (t : Nat) : List Call :=
  calls.filter fun call => call.thread? = some t

/-- Only the calls of each thread matter, and not how the threads take turns. -/
theorem agrees_of_same_threads (l : Ledger)
    (hcalls : ∀ call ∈ calls, ∃ t, call.thread? = some t)
    (hcalls' : ∀ call ∈ calls', ∃ t, call.thread? = some t)
    (hsame : ∀ t, callsOf calls t = callsOf calls' t) :
    (calls.foldl step l).Agrees (calls'.foldl step l) := by
  induction calls generalizing calls' l with
  | nil =>
    -- a first call of the other run would be a call of some thread
    cases calls' with
    | nil => exact .refl l
    | cons call calls' =>
      obtain ⟨t, ht⟩ := hcalls' call List.mem_cons_self
      have hnil := hsame t
      simp [callsOf, ht] at hnil
  | cons call calls ih =>
    obtain ⟨⟨t, ht⟩, hrest⟩ := List.forall_mem_cons.mp hcalls
    -- the other run makes the call too, after calls of other threads
    have hfirst : callsOf calls' t = call :: callsOf calls t := by
      rw [← hsame t]
      simp [callsOf, ht]
    obtain ⟨before, after, rfl, hbefore, _, hafter⟩ := List.filter_eq_cons_iff.mp hfirst
    obtain ⟨hcallsBefore, hcallsAfter⟩ := List.forall_mem_append.mp hcalls'
    have hothers : ∀ c ∈ before, ∃ s, c.thread? = some s ∧ s ≠ t := by
      intro c hc
      obtain ⟨s, hs⟩ := hcallsBefore c hc
      exact ⟨s, hs, fun heq => hbefore c hc (decide_eq_true (heq ▸ hs))⟩
    have hafter' := (List.forall_mem_cons.mp hcallsAfter).2
    have hsame' : ∀ u, callsOf calls u = callsOf (before ++ after) u := by
      intro u
      by_cases hu : u = t
      · rw [hu, ← hafter, callsOf, List.filter_append, List.filter_eq_nil_iff.mpr hbefore,
          List.nil_append]
      · have hne : ¬ call.thread? = some u := fun h => hu (Option.some.inj (h.symm.trans ht))
        simpa [callsOf, hne] using hsame u
    exact (ih (l.step call) hrest (List.forall_mem_append.mpr ⟨hcallsBefore, hafter'⟩) hsame').trans
      (agrees_of_earlier ht hothers hafter' l).symm

end Ledger

end LockOrder
