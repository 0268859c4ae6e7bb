import LockOrder.Proofs.Recorder.Evidence
import LockOrder.Proofs.Recorder.Ledger

/-!
# Classes and the log

The classes of a recorder have different labels, and the evidence from one class to another is that
of the log entries between their labels. The two operations on classes keep this up: a new class is
added under a label that no class has yet, and an acquisition adds evidence for each lock held.

## Main definitions

* `Recorder.classLabel?` — the label of a class
* `Recorder.between` — the log entries between two labels
* `Recorder.Tracks` — the classes hold the evidence of a log

## Main results

* `Recorder.Tracks.push` — a new class
* `Recorder.Tracks.noteEdges` — an acquisition
-/

namespace LockOrder.Recorder

variable {classes : Array LockClass} {log : List Sighting} {c d : Nat} {A B label : String}

/-- The label of a class. -/
def classLabel? (classes : Array LockClass) (c : Nat) : Option String :=
  classes[c]?.map LockClass.label

theorem classLabel?_eq_some_iff :
    classLabel? classes c = some A ↔ ∃ k, classes[c]? = some k ∧ k.label = A := by
  simp [classLabel?, Option.map_eq_some_iff]

theorem lt_of_classLabel?_eq_some (h : classLabel? classes c = some A) : c < classes.size := by
  obtain ⟨k, hk, _⟩ := classLabel?_eq_some_iff.mp h
  exact (Array.getElem?_eq_some_iff.mp hk).1

theorem exists_classLabel?_of_lt (h : c < classes.size) : ∃ A, classLabel? classes c = some A :=
  ⟨classes[c].label, by simp [classLabel?, h]⟩

theorem classLabel?_push (k : LockClass) :
    classLabel? (classes.push k) c =
      if c = classes.size then some k.label else classLabel? classes c := by
  rw [classLabel?, classLabel?, Array.getElem?_push]
  split <;> simp

theorem classLabel?_push_of_lt (k : LockClass) (hc : c < classes.size) :
    classLabel? (classes.push k) c = classLabel? classes c := by
  rw [classLabel?_push, if_neg (Nat.ne_of_lt hc)]

theorem classLabel?_push_of_eq_some (k : LockClass) (hc : classLabel? classes c = some A) :
    classLabel? (classes.push k) c = some A :=
  (classLabel?_push_of_lt k (lt_of_classLabel?_eq_some hc)).trans hc

/-! ### Log entries between two labels -/

/-- The stacks of the log entries between two labels. -/
def between (log : List Sighting) (source target : String) : List (Stack × Stack) :=
  log.filterMap fun s =>
    if s.source = source ∧ s.target = target then some (s.first, s.second) else none

theorem between_concat (log : List Sighting) (s : Sighting) (source target : String) :
    between (log ++ [s]) source target =
      between log source target ++
        if s.source = source ∧ s.target = target then [(s.first, s.second)] else [] := by
  rw [between, List.filterMap_append, between]
  split <;> simp_all

theorem between_eq_nil_iff :
    between log A B = [] ↔ ∀ s ∈ log, ¬ (s.source = A ∧ s.target = B) := by
  simp [between, List.filterMap_eq_nil_iff]

/-- The evidence of a list of sightings; there is none for the empty list. -/
def evidence? (seen : List (Stack × Stack)) : Option Evidence :=
  if seen = [] then none else some (.ofSightings seen)

theorem evidence?_getD (seen : List (Stack × Stack)) :
    (evidence? seen).getD .empty = .ofSightings seen := by
  unfold evidence?
  split
  · next h => rw [h]; rfl
  · rfl

/-! ### Classes that hold the evidence of a log -/

/-- The classes have different labels, and the evidence from one to another is that of the log
entries between their labels. -/
structure Tracks (classes : Array LockClass) (log : List Sighting) : Prop where
  /-- No two classes share a label. -/
  label_inj : ∀ c d A, classLabel? classes c = some A → classLabel? classes d = some A → c = d
  /-- The evidence of a class has one entry for each target. -/
  distinct : ∀ (c : Nat) (k : LockClass), classes[c]? = some k → k.out.Distinct
  /-- Every target is a class. -/
  inside : ∀ (c : Nat) (k : LockClass), classes[c]? = some k →
    ∀ d e, k.out.get? d = some e → d < classes.size
  /-- The evidence is that of the log entries. -/
  evidence : ∀ (c : Nat) (k : LockClass) (d : Nat) (B : String), classes[c]? = some k →
    classLabel? classes d = some B → k.out.get? d = evidence? (between log k.label B)
  /-- The log speaks of classes only. -/
  logged : ∀ s ∈ log, (∃ c, classLabel? classes c = some s.source) ∧
    ∃ c, classLabel? classes c = some s.target

theorem tracks_empty : Tracks #[] [] := by
  refine ⟨?_, ?_, ?_, ?_, by simp⟩ <;> simp [classLabel?]

/-- A new class has no evidence. -/
theorem Tracks.push (h : Tracks classes log) (hnew : ∀ c, classLabel? classes c ≠ some label) :
    Tracks (classes.push ⟨label, .empty⟩) log := by
  have hget : ∀ {c : Nat} {k : LockClass}, (classes.push ⟨label, .empty⟩)[c]? = some k →
      c = classes.size ∧ k = ⟨label, .empty⟩ ∨ c ≠ classes.size ∧ classes[c]? = some k := by
    intro c k hk
    rw [Array.getElem?_push] at hk
    split at hk
    · next hc => exact .inl ⟨hc, (Option.some.inj hk).symm⟩
    · next hc => exact .inr ⟨hc, hk⟩
  -- no log entry speaks of the new class
  have hsource : ∀ B, between log label B = [] := fun B =>
    between_eq_nil_iff.mpr fun s hs heq => by
      obtain ⟨c, hc⟩ := (h.logged s hs).1
      exact hnew c (heq.1 ▸ hc)
  have htarget : ∀ A, between log A label = [] := fun A =>
    between_eq_nil_iff.mpr fun s hs heq => by
      obtain ⟨c, hc⟩ := (h.logged s hs).2
      exact hnew c (heq.2 ▸ hc)
  refine ⟨?label_inj, ?distinct, ?inside, ?evidence, ?logged⟩
  case label_inj =>
    intro c d A hc hd
    rw [classLabel?_push] at hc hd
    split at hc <;> split at hd
    · next hc' hd' => exact hc'.trans hd'.symm
    · exact absurd (hd.trans hc.symm) (hnew d)
    · exact absurd (hc.trans hd.symm) (hnew c)
    · exact h.label_inj c d A hc hd
  case distinct =>
    intro c k hk
    rcases hget hk with ⟨_, rfl⟩ | ⟨_, hk⟩
    · exact Dictionary.distinct_empty
    · exact h.distinct c k hk
  case inside =>
    intro c k hk d e hd
    rw [Array.size_push]
    rcases hget hk with ⟨_, rfl⟩ | ⟨_, hk⟩
    · simp at hd
    · exact Nat.lt_succ_of_lt (h.inside c k hk d e hd)
  case evidence =>
    intro c k d B hk hd
    rcases hget hk with ⟨_, rfl⟩ | ⟨_, hk⟩
    · rw [hsource]
      rfl
    · rw [classLabel?_push] at hd
      split at hd
      · -- the new class is past all targets, so there is no evidence for it yet
        next hsize =>
        obtain rfl := Option.some.inj hd
        rw [htarget, hsize]
        cases hout : k.out.get? classes.size with
        | none => rfl
        | some e => exact absurd (h.inside c k hk _ e hout) (Nat.lt_irrefl _)
      · exact h.evidence c k d B hk hd
  case logged =>
    intro s hs
    obtain ⟨⟨c, hc⟩, d, hd⟩ := h.logged s hs
    exact ⟨⟨c, classLabel?_push_of_eq_some _ hc⟩, d, classLabel?_push_of_eq_some _ hd⟩

/-- A lock that is held, with the label of its class. -/
def holding (classes : Array LockClass) (h : Held) : Holding :=
  ⟨h.lock, (classLabel? classes h.lockClass).getD "", h.rank, h.stack⟩

theorem holding_push (k : LockClass) {h : Held} (hlt : h.lockClass < classes.size) :
    holding (classes.push k) h = holding classes h := by
  rw [holding, holding, classLabel?_push_of_lt k hlt]

@[simp]
theorem classLabel?_noteEdge (held new : Held) :
    classLabel? (noteEdge classes held new) c = classLabel? classes c := by
  unfold noteEdge
  split
  · rfl
  · rw [classLabel?, classLabel?, Array.getElem?_modify]
    split <;> simp [Function.comp_def]

@[simp]
theorem size_noteEdge (held new : Held) : (noteEdge classes held new).size = classes.size := by
  unfold noteEdge
  split <;> simp

/-- The evidence that an acquisition adds to a class. -/
def addEvidence (k : LockClass) (target : Nat) (first second : Stack) : LockClass :=
  { k with out := k.out.insert target (((k.out.get? target).getD .empty).add first second) }

theorem label_addEvidence (k : LockClass) (target : Nat) (first second : Stack) :
    (addEvidence k target first second).label = k.label := rfl

theorem get?_out_addEvidence (k : LockClass) (target : Nat) (first second : Stack) :
    (addEvidence k target first second).out.get? d =
      if target = d then some (((k.out.get? target).getD .empty).add first second)
      else k.out.get? d :=
  Dictionary.get?_insert

theorem getElem?_noteEdge {held new : Held}
    (hrise : ¬ (held.lockClass = new.lockClass ∧ held.rank < new.rank)) :
    (noteEdge classes held new)[c]? =
      if held.lockClass = c then
        classes[c]?.map fun k => addEvidence k new.lockClass held.stack new.stack
      else classes[c]? := by
  rw [noteEdge, if_neg hrise, Array.getElem?_modify]
  rfl

/-- What one noted edge does to the evidence, when it is not left out. -/
theorem Tracks.addSighting (h : Tracks classes log) {held new : Held}
    (hheld : classLabel? classes held.lockClass = some A)
    (hnew : classLabel? classes new.lockClass = some B)
    (hrise : ¬ (held.lockClass = new.lockClass ∧ held.rank < new.rank)) :
    Tracks (noteEdge classes held new) (log ++ [⟨A, B, held.stack, new.stack⟩]) := by
  have hget : ∀ {c : Nat} {k : LockClass}, (noteEdge classes held new)[c]? = some k →
      (held.lockClass = c ∧ ∃ k₀, classes[c]? = some k₀ ∧
        addEvidence k₀ new.lockClass held.stack new.stack = k) ∨
      held.lockClass ≠ c ∧ classes[c]? = some k := by
    intro c k hk
    rw [getElem?_noteEdge hrise] at hk
    split at hk
    · next hc => exact .inl ⟨hc, Option.map_eq_some_iff.mp hk⟩
    · next hc => exact .inr ⟨hc, hk⟩
  refine ⟨by simpa using h.label_inj, ?distinct, ?inside, ?evidence, ?logged⟩
  case distinct =>
    intro c k hk
    rcases hget hk with ⟨_, k₀, hk₀, rfl⟩ | ⟨_, hk⟩
    · exact (h.distinct c k₀ hk₀).insert _ _
    · exact h.distinct c k hk
  case inside =>
    intro c k hk d e hd
    rw [size_noteEdge]
    rcases hget hk with ⟨_, k₀, hk₀, rfl⟩ | ⟨_, hk⟩
    · rw [get?_out_addEvidence] at hd
      split at hd
      · next heq => exact heq ▸ lt_of_classLabel?_eq_some hnew
      · exact h.inside c k₀ hk₀ d e hd
    · exact h.inside c k hk d e hd
  case evidence =>
    intro c k d B' hk hd
    rw [classLabel?_noteEdge] at hd
    rw [between_concat]
    rcases hget hk with ⟨rfl, k₀, hk₀, rfl⟩ | ⟨hc, hk⟩
    · have hlabel : k₀.label = A := by simpa [classLabel?, hk₀] using hheld
      rw [get?_out_addEvidence, label_addEvidence, hlabel]
      by_cases hdn : new.lockClass = d
      · -- the evidence between the two classes grows by one sighting
        subst hdn
        obtain rfl : B = B' := Option.some.inj (hnew.symm.trans hd)
        have hold := h.evidence _ k₀ _ B hk₀ hnew
        rw [hlabel] at hold
        rw [if_pos rfl, if_pos ⟨rfl, rfl⟩, hold, evidence?_getD, evidence?, if_neg (by simp),
          Evidence.ofSightings_concat]
      · -- another target has another label
        have hB : B ≠ B' := fun heq => hdn (h.label_inj _ _ B' (heq ▸ hnew) hd)
        rw [if_neg hdn, if_neg fun heq => hB heq.2, List.append_nil, ← hlabel]
        exact h.evidence _ k₀ d B' hk₀ hd
    · -- another source has another label
      have hA : A ≠ k.label := fun heq =>
        hc (h.label_inj _ _ A hheld (classLabel?_eq_some_iff.mpr ⟨k, hk, heq.symm⟩))
      rw [if_neg fun heq => hA heq.1, List.append_nil]
      exact h.evidence c k d B' hk hd
  case logged =>
    intro s hs
    simp only [classLabel?_noteEdge]
    rcases List.mem_append.mp hs with hs | hs
    · exact h.logged s hs
    · rw [List.mem_singleton.mp hs]
      exact ⟨⟨_, hheld⟩, _, hnew⟩

/-- A noted edge is a log entry, or none if it is a rise in rank inside one class. -/
theorem Tracks.noteEdge (h : Tracks classes log) {held new : Held}
    (hheld : held.lockClass < classes.size) (hnew : new.lockClass < classes.size) :
    Tracks (noteEdge classes held new)
      (log ++ (Ledger.sighting? (holding classes new) (holding classes held)).toList) := by
  obtain ⟨A, hA⟩ := exists_classLabel?_of_lt hheld
  obtain ⟨B, hB⟩ := exists_classLabel?_of_lt hnew
  -- classes are the same exactly when their labels are
  have hsame : held.lockClass = new.lockClass ↔ A = B := by
    constructor
    · intro heq
      rw [heq, hB] at hA
      exact (Option.some.inj hA).symm
    · rintro rfl
      exact h.label_inj _ _ A hA hB
  simp only [Ledger.sighting?, holding, hA, hB, Option.getD_some]
  by_cases hrise : held.lockClass = new.lockClass ∧ held.rank < new.rank
  · rw [Recorder.noteEdge, if_pos hrise, if_pos ⟨hsame.mp hrise.1, hrise.2⟩]
    simpa using h
  · rw [if_neg fun hrise' => hrise ⟨hsame.mpr hrise'.1, hrise'.2⟩]
    exact h.addSighting hA hB hrise

@[simp]
theorem classLabel?_noteEdges (held : List Held) (new : Held) :
    classLabel? (noteEdges classes held new) c = classLabel? classes c := by
  induction held generalizing classes with
  | nil => rfl
  | cons h held ih =>
    change classLabel? (noteEdges (Recorder.noteEdge classes h new) held new) c = _
    rw [ih, classLabel?_noteEdge]

@[simp]
theorem size_noteEdges (held : List Held) (new : Held) :
    (noteEdges classes held new).size = classes.size := by
  induction held generalizing classes with
  | nil => rfl
  | cons h held ih =>
    change (noteEdges (Recorder.noteEdge classes h new) held new).size = _
    rw [ih, size_noteEdge]

theorem holding_noteEdge (classes : Array LockClass) (held new : Held) :
    holding (Recorder.noteEdge classes held new) = holding classes := by
  funext h
  simp [holding]

theorem holding_noteEdges (classes : Array LockClass) (held : List Held) (new : Held) :
    holding (Recorder.noteEdges classes held new) = holding classes := by
  funext h
  simp [holding]

/-- An acquisition adds a log entry for each lock held, but for rises in rank. -/
theorem Tracks.noteEdges (h : Tracks classes log) (held : List Held) (new : Held)
    (hheld : ∀ k ∈ held, k.lockClass < classes.size) (hnew : new.lockClass < classes.size) :
    Tracks (noteEdges classes held new)
      (log ++ (held.map (holding classes)).filterMap
        (Ledger.sighting? (holding classes new))) := by
  induction held generalizing classes log with
  | nil => simpa [Recorder.noteEdges] using h
  | cons k held ih =>
    have hstep := h.noteEdge (hheld k List.mem_cons_self) hnew
    have hrest := ih hstep
      (fun k' hk' => by rw [size_noteEdge]; exact hheld k' (List.mem_cons_of_mem k hk'))
      (by rwa [size_noteEdge])
    change Tracks (Recorder.noteEdges (Recorder.noteEdge classes k new) held new) _
    rw [holding_noteEdge, List.append_assoc] at hrest
    rw [List.map_cons, List.filterMap_cons]
    cases hs : Ledger.sighting? (holding classes new) (holding classes k) with
    | none => simpa [hs] using hrest
    | some s => simpa [hs] using hrest

end LockOrder.Recorder
