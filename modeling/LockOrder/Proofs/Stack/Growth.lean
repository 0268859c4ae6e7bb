import LockOrder.Proofs.Graph.Sound
import LockOrder.Proofs.Recorder.Ledger

/-!
# Growing tables

The string tables of a stack table are only ever added to at their ends. Stacks that were made of a
stack table therefore read the same after any number of names were interned later, whoever interned
them, and whether or not the table held a string twice to begin with.

## Main definitions

* `StackTable.GrowsTo` — a table goes on from another
* `Interning`, `StackTable.after` — calls that intern names, and the table after them

## Main results

* `StackTable.growsTo_after` — interning makes a table grow
* `StackTable.GrowsTo.holds` — a frame inside a table stays inside
* `StackTable.GrowsTo.frameText_eq`, `StackTable.GrowsTo.stackText_eq` — and reads the same
* `Recorder.growsTo_run` — the table of a recorder grows along a run
-/

namespace LockOrder

/-! ### Stack tables -/

/-- A call that interns names into a stack table. -/
inductive Interning where
  /-- One frame. -/
  | line (l : SourceLine)
  /-- The frames of a symbolizer's lines. -/
  | lines (ls : List SourceLine)
deriving DecidableEq, Repr

namespace StackTable

variable {t t' t'' : StackTable} {pos : Pos} {s : Stack}

/-- Both string tables go on from those of another stack table. -/
structure GrowsTo (t t' : StackTable) : Prop where
  /-- The file names. -/
  files : t.files.GrowsTo t'.files
  /-- The function names. -/
  funcs : t.funcs.GrowsTo t'.funcs

theorem GrowsTo.refl (t : StackTable) : t.GrowsTo t := ⟨.refl _, .refl _⟩

theorem GrowsTo.trans (h : t.GrowsTo t') (h' : t'.GrowsTo t'') : t.GrowsTo t'' :=
  ⟨h.files.trans h'.files, h.funcs.trans h'.funcs⟩

theorem growsTo_intern (t : StackTable) (l : SourceLine) : t.GrowsTo (t.intern l).2 :=
  ⟨StringTable.growsTo_add _ _, StringTable.growsTo_add _ _⟩

theorem growsTo_internAll (t : StackTable) (ls : List SourceLine) :
    t.GrowsTo (t.internAll ls).2 := by
  induction ls generalizing t with
  | nil => exact .refl t
  | cons l ls ih => exact (t.growsTo_intern l).trans (ih _)

/-- The table after a call that interns names. -/
def after (t : StackTable) : Interning → StackTable
  | .line l => (t.intern l).2
  | .lines ls => (t.stackOfLines ls).2

/-- Interning makes a table grow. -/
theorem growsTo_after (t : StackTable) (calls : List Interning) :
    t.GrowsTo (calls.foldl after t) := by
  induction calls generalizing t with
  | nil => exact .refl t
  | cons call calls ih =>
    have hfirst : t.GrowsTo (t.after call) := by
      cases call with
      | line l => exact t.growsTo_intern l
      | lines ls => exact t.growsTo_internAll ls
    exact hfirst.trans (ih _)

/-- Interning frames is interning their names; an unresolved frame has none. -/
theorem stackOfFrames_eq_after (t : StackTable) (fs : List (SourceLine ⊕ String)) :
    (t.stackOfFrames fs).2 = ((fs.filterMap Sum.getLeft?).map Interning.line).foldl after t := by
  induction fs generalizing t with
  | nil => rfl
  | cons f fs ih =>
    cases f with
    | inl l => exact ih (t.intern l).2
    | inr text => exact ih t

/-! ### Frames in a growing table -/

/-- A frame inside a table stays inside. -/
theorem GrowsTo.holds (h : t.GrowsTo t') (hpos : t.Holds pos) : t'.Holds pos := by
  cases pos with
  | unresolved text => trivial
  | resolved file func line =>
    exact ⟨Nat.lt_of_lt_of_le hpos.1 h.files.size_le, Nat.lt_of_lt_of_le hpos.2 h.funcs.size_le⟩

theorem GrowsTo.funcName?_eq (h : t.GrowsTo t') (hpos : t.Holds pos) :
    t'.funcName? pos = t.funcName? pos := by
  cases pos with
  | unresolved text => rfl
  | resolved file func line => rw [funcName?, funcName?, h.funcs.get_eq hpos.2]

theorem GrowsTo.frameText_eq (h : t.GrowsTo t') (hpos : t.Holds pos) :
    t'.frameText pos = t.frameText pos := by
  cases pos with
  | unresolved text => rfl
  | resolved file func line =>
    rw [frameText, frameText, h.files.get_eq hpos.1, h.funcs.get_eq hpos.2]

/-- A stack whose frames are inside a table reads the same however the table grows. -/
theorem GrowsTo.stackText_eq (h : t.GrowsTo t') (hs : ∀ pos ∈ s.frames, t.Holds pos) :
    t'.stackText s = t.stackText s := by
  have hframes : s.frames.mapM t'.frameText = s.frames.mapM t.frameText :=
    Outcome.mapM_congr fun pos hpos => h.frameText_eq (hs pos hpos)
  rw [stackText, stackText, hframes]

end StackTable

theorem StackPair.Sound.growsTo {t t' : StackTable} {p : StackPair} (hp : p.Sound t)
    (h : t.GrowsTo t') : p.Sound t' where
  count_pos := hp.count_pos
  first pos hpos := h.holds (hp.first pos hpos)
  second pos hpos := h.holds (hp.second pos hpos)

/-! ### Graphs and recorders that share a table -/

/-- A sound graph stays sound when its table grows. -/
theorem Graph.Sound.growsTo {g : Graph} {table : StackTable} (hg : g.Sound)
    (h : g.table.GrowsTo table) : Graph.Sound { g with table := table } where
  edges_size := hg.edges_size
  targets_size := hg.targets_size
  degree := hg.degree
  inside := hg.inside
  evidence node edges hedges edge hedge p hp :=
    (hg.evidence node edges hedges edge hedge p hp).growsTo h

namespace Recorder

theorem table_classForLabel (r : Recorder) (label : String) :
    (r.classForLabel label).2.table = r.table := by
  unfold classForLabel
  cases r.classOfLabel.get? label <;> rfl

theorem table_classForLock (r : Recorder) (thread lock : Nat) (stack : Stack) :
    (r.classForLock thread lock stack).2.1.table = r.table := by
  unfold classForLock
  cases r.classOfLock.get? lock with
  | some c => rfl
  | none =>
    cases r.names.get? lock with
    | some label => exact r.table_classForLabel label
    | none => exact r.table_classForLabel (Event.hexText lock)

/-- Only interning changes the table of a recorder. -/
theorem exists_after_perform (r : Recorder) (call : Call) :
    ∃ interned : List Interning,
      (r.perform call).1.table = interned.foldl StackTable.after r.table := by
  cases call with
  | intern frames => exact ⟨_, r.table.stackOfFrames_eq_after frames⟩
  | name lock label => exact ⟨[], rfl⟩
  | acquire thread lock stack => exact ⟨[], r.table_classForLock thread lock stack⟩
  | acquireLabeled thread lock stack label rank => exact ⟨[], r.table_classForLabel label⟩
  | mayAcquire thread lock stack =>
    refine ⟨[], ?_⟩
    rw [perform, mayAcquire]
    cases r.heldBy thread with
    | nil => rfl
    | cons h held => exact r.table_classForLock thread lock stack
  | release thread lock =>
    refine ⟨[], ?_⟩
    rw [perform, release]
    cases r.threads.get? thread with
    | none => rfl
    | some held =>
      dsimp only
      cases held.findIdx? fun h => h.lock = lock <;> rfl

/-- What a run does to the table of a recorder is interning. -/
theorem exists_after_run (r : Recorder) (calls : List Call) :
    ∃ interned : List Interning, (r.run calls).table = interned.foldl StackTable.after r.table := by
  induction calls generalizing r with
  | nil => exact ⟨[], rfl⟩
  | cons call calls ih =>
    obtain ⟨first, hfirst⟩ := r.exists_after_perform call
    obtain ⟨rest, hrest⟩ := ih (r.perform call).1
    refine ⟨first ++ rest, ?_⟩
    rw [List.foldl_append, ← hfirst]
    exact hrest

theorem growsTo_run (r : Recorder) (calls : List Call) : r.table.GrowsTo (r.run calls).table := by
  obtain ⟨interned, heq⟩ := r.exists_after_run calls
  rw [heq]
  exact r.table.growsTo_after interned

end Recorder

end LockOrder
