import LockOrder.Proofs.Recorder.Classes

/-!
# A recorder mirrors the ledger of its run

The recorder keeps numbers of classes where the ledger keeps labels, caches the class of a lock, and
stores evidence where the ledger writes a log. After every call the two still tell the same. The
class of a lock that is held stays what it was when the lock was taken, whatever label the lock is
given later, because the label of a class never changes.

## Main definitions

* `Recorder.Mirrors` — a recorder tells the same as a ledger

## Main results

* `Recorder.release_of_findIdx?_eq_none`, `Recorder.release_of_findIdx?_eq_some` — what a release
  does
* `Recorder.Mirrors.perform` — a call keeps that up
* `Recorder.mirrors_run` — the recorder of a run mirrors the ledger of the run
-/

namespace LockOrder.Recorder

variable {r : Recorder} {l : Ledger}

/-- A recorder tells the same as a ledger. -/
structure Mirrors (r : Recorder) (l : Ledger) : Prop where
  /-- The classes hold the evidence of the log. -/
  tracks : Tracks r.classes l.log
  /-- The class of a label is the one that has it. -/
  label_iff : ∀ label c, r.classOfLabel.get? label = some c ↔ classLabel? r.classes c = some label
  /-- There is a class for each label that a lock was taken under. -/
  taken_iff : ∀ label, label ∈ l.taken ↔ ∃ c, classLabel? r.classes c = some label
  /-- The labels given to locks are the same. -/
  names_eq : ∀ lock, r.names.get? lock = l.names lock
  /-- A class that is remembered for a lock has the label of the lock. -/
  cached : ∀ lock c, r.classOfLock.get? lock = some c →
    classLabel? r.classes c = some (l.labelOf lock)
  /-- Locks are held under classes. -/
  held_lt : ∀ thread, ∀ h ∈ r.heldBy thread, h.lockClass < r.classes.size
  /-- The same locks are held. -/
  held_eq : ∀ thread, l.held thread = (r.heldBy thread).map (holding r.classes)

theorem mirrors_empty (table : StackTable) : Mirrors (empty table) .empty := by
  refine ⟨tracks_empty, ?_, ?_, fun _ => rfl, ?_, ?_, fun _ => rfl⟩
  · simp [empty, classLabel?]
  · simp [empty, classLabel?, Ledger.empty]
  · simp [empty]
  · simp [empty, heldBy]

/-! ### Classes for labels and locks -/

/-- A label that has a class may be taken again. -/
theorem Mirrors.retake {c : Nat} {label : String} (h : Mirrors r l)
    (hc : classLabel? r.classes c = some label) :
    Mirrors r { l with taken := l.taken ++ [label] } := by
  refine { h with taken_iff := fun label' => ?_ }
  rw [List.mem_append, h.taken_iff, List.mem_singleton]
  constructor
  · rintro (hold | rfl)
    · exact hold
    · exact ⟨c, hc⟩
  · exact .inl

/-- The class of a label has that label, and making it keeps the rest. -/
theorem Mirrors.classForLabel (h : Mirrors r l) (label : String) :
    ∃ c r', r.classForLabel label = (c, r') ∧ classLabel? r'.classes c = some label ∧
      r'.threads = r.threads ∧ Mirrors r' { l with taken := l.taken ++ [label] } := by
  unfold Recorder.classForLabel
  cases hlookup : r.classOfLabel.get? label with
  | some c =>
    have hc := (h.label_iff label c).mp hlookup
    exact ⟨c, r, rfl, hc, rfl, h.retake hc⟩
  | none =>
    have hnew : ∀ c, classLabel? r.classes c ≠ some label := fun c hc => by
      have hsome := (h.label_iff label c).mpr hc
      simp [hlookup] at hsome
    have hself : classLabel? (r.classes.push ⟨label, .empty⟩) r.classes.size = some label := by
      rw [classLabel?_push, if_pos rfl]
    refine ⟨_, _, rfl, hself, rfl, h.tracks.push hnew, ?label_iff, ?taken_iff, h.names_eq,
      fun lock c hc => classLabel?_push_of_eq_some _ (h.cached lock c hc), ?held_lt, ?held_eq⟩
    case label_iff =>
      intro label' c
      rw [Dictionary.get?_insert, classLabel?_push]
      by_cases hlabel : label = label'
      · subst hlabel
        rw [if_pos rfl]
        by_cases hc : c = r.classes.size
        · simp [hc]
        · simp [hc, hnew c, Ne.symm hc]
      · rw [if_neg hlabel, h.label_iff]
        by_cases hc : c = r.classes.size
        · have hnone : classLabel? r.classes r.classes.size = none := by simp [classLabel?]
          simp [hc, hnone, hlabel]
        · simp [hc]
    case taken_iff =>
      intro label'
      rw [List.mem_append, h.taken_iff, List.mem_singleton]
      constructor
      · rintro (⟨c, hc⟩ | rfl)
        · exact ⟨c, classLabel?_push_of_eq_some _ hc⟩
        · exact ⟨_, hself⟩
      · rintro ⟨c, hc⟩
        rw [classLabel?_push] at hc
        split at hc
        · exact .inr (Option.some.inj hc).symm
        · exact .inl ⟨c, hc⟩
    case held_lt =>
      intro thread k hk
      rw [Array.size_push]
      exact Nat.lt_succ_of_lt (h.held_lt thread k hk)
    case held_eq =>
      intro thread
      refine (h.held_eq thread).trans (List.map_congr_left fun k hk => ?_)
      exact (holding_push _ (h.held_lt thread k hk)).symm

/-- The class of a lock has the label that the lock is taken under. -/
theorem Mirrors.classForLock (h : Mirrors r l) (thread lock : Nat) (stack : Stack) :
    ∃ c r' events, r.classForLock thread lock stack = (c, r', events) ∧
      classLabel? r'.classes c = some (l.labelOf lock) ∧ r'.threads = r.threads ∧
      Mirrors r' { l with taken := l.taken ++ [l.labelOf lock] } := by
  unfold Recorder.classForLock
  cases hcache : r.classOfLock.get? lock with
  | some c =>
    have hc := h.cached lock c hcache
    exact ⟨c, r, [], rfl, hc, rfl, h.retake hc⟩
  | none =>
    obtain ⟨c, r', hclass, hc, hthreads, hr'⟩ := h.classForLabel (l.labelOf lock)
    have hcached : Mirrors { r' with classOfLock := r'.classOfLock.insert lock c }
        { l with taken := l.taken ++ [l.labelOf lock] } := by
      refine { hr' with cached := fun lock' c' hc' => ?_ }
      rw [Dictionary.get?_insert] at hc'
      split at hc'
      · next heq =>
        obtain rfl := Option.some.inj hc'
        exact heq ▸ hc
      · exact hr'.cached lock' c' hc'
    rw [Ledger.labelOf, ← h.names_eq] at hclass
    cases hname : r.names.get? lock with
    | none =>
      rw [hname, Option.getD_none, ← Event.hexText_eq] at hclass
      exact ⟨c, { r' with classOfLock := r'.classOfLock.insert lock c }, _,
        by dsimp only; rw [hclass], hc, hthreads, hcached⟩
    | some label =>
      rw [hname, Option.getD_some] at hclass
      exact ⟨c, { r' with classOfLock := r'.classOfLock.insert lock c }, _,
        by dsimp only; rw [hclass], hc, hthreads, hcached⟩

/-! ### Acquisitions and releases -/

@[simp]
theorem heldBy_insert (r : Recorder) (thread thread' : Nat) (held : List Held) :
    heldBy { r with threads := r.threads.insert thread held } thread' =
      if thread = thread' then held else r.heldBy thread' := by
  rw [heldBy, Dictionary.get?_insert]
  split <;> rfl

/-- Noting the edges of an acquisition writes its entries into the log. -/
theorem Mirrors.note (h : Mirrors r l) (thread : Nat) (new : Held)
    (hnew : new.lockClass < r.classes.size) :
    Mirrors { r with classes := noteEdges r.classes (r.heldBy thread) new }
      { l with
        log := l.log ++ (l.held thread).filterMap (Ledger.sighting? (holding r.classes new)) } where
  tracks := by
    rw [h.held_eq]
    exact h.tracks.noteEdges _ new (h.held_lt thread) hnew
  label_iff label c := by
    rw [classLabel?_noteEdges]
    exact h.label_iff label c
  taken_iff label := by
    simp only [classLabel?_noteEdges]
    exact h.taken_iff label
  names_eq := h.names_eq
  cached lock c hc := by
    rw [classLabel?_noteEdges]
    exact h.cached lock c hc
  held_lt thread' k hk := by
    rw [size_noteEdges]
    exact h.held_lt thread' k hk
  held_eq thread' := by
    refine (h.held_eq thread').trans (List.map_congr_left fun k _ => ?_)
    simp [holding]

/-- The locks that a thread holds may be replaced. -/
theorem Mirrors.setHeld (h : Mirrors r l) (thread : Nat) (held : List Held)
    (hheld : ∀ k ∈ held, k.lockClass < r.classes.size) :
    Mirrors { r with threads := r.threads.insert thread held }
      { l with held := Function.update l.held thread (held.map (holding r.classes)) } := by
  refine { h with held_lt := fun thread' k hk => ?_, held_eq := fun thread' => ?_ }
  · rw [heldBy_insert] at hk
    split at hk
    · exact hheld k hk
    · exact h.held_lt thread' k hk
  · rw [heldBy_insert]
    by_cases hthread : thread = thread'
    · subst hthread
      simp
    · rw [if_neg hthread]
      simpa [Function.update, Ne.symm hthread] using h.held_eq thread'

/-- A thread takes a lock of a class. -/
theorem Mirrors.take {label : String} (h : Mirrors r l) (thread lock c rank : Nat) (stack : Stack)
    (hc : classLabel? r.classes c = some label) :
    Mirrors (r.take thread ⟨lock, c, rank, stack⟩)
      { l with
        held := Function.update l.held thread (l.held thread ++ [⟨lock, label, rank, stack⟩])
        log := l.log ++
          (l.held thread).filterMap (Ledger.sighting? ⟨lock, label, rank, stack⟩) } := by
  have hlt := lt_of_classLabel?_eq_some hc
  have hholding : holding r.classes ⟨lock, c, rank, stack⟩ = ⟨lock, label, rank, stack⟩ := by
    simp [holding, hc]
  have hnote := h.note thread ⟨lock, c, rank, stack⟩ hlt
  have hset := hnote.setHeld thread (r.heldBy thread ++ [⟨lock, c, rank, stack⟩]) (by
    intro k hk
    rw [size_noteEdges]
    rcases List.mem_append.mp hk with hk | hk
    · exact h.held_lt thread k hk
    · rwa [List.mem_singleton.mp hk])
  simp only [holding_noteEdges, List.map_append, List.map_singleton, hholding,
    ← h.held_eq] at hset
  exact hset

theorem map_swapRemove {α β : Type} (f : α → β) (xs : List α) (i : Nat) :
    (swapRemove xs i).map f = swapRemove (xs.map f) i := by
  unfold swapRemove
  rw [List.getLast?_map]
  cases xs.getLast? with
  | none => rfl
  | some last => simp [List.map_dropLast, List.map_set]

theorem mem_of_mem_swapRemove {α : Type} {xs : List α} {i : Nat} {x : α}
    (h : x ∈ swapRemove xs i) : x ∈ xs := by
  unfold swapRemove at h
  cases hlast : xs.getLast? with
  | none => simpa [hlast] using h
  | some last =>
    simp only [hlast] at h
    rcases List.mem_or_eq_of_mem_set ((List.dropLast_sublist _).mem h) with hx | rfl
    · exact hx
    · exact List.mem_of_getLast? hlast

/-- Dropping the first entry of a lock means the same for both. -/
theorem dropFirst_map_holding (classes : Array LockClass) (lock : Nat) (held : List Held) :
    Ledger.dropFirst lock (held.map (holding classes)) =
      match held.findIdx? fun h => h.lock = lock with
      | some i => (swapRemove held i).map (holding classes)
      | none => held.map (holding classes) := by
  have hfind : (held.map (holding classes)).findIdx? (fun h => h.lock = lock) =
      held.findIdx? fun h => h.lock = lock := by
    rw [List.findIdx?_map]
    rfl
  rw [Ledger.dropFirst, hfind]
  cases held.findIdx? fun h => h.lock = lock with
  | none => rfl
  | some i => exact (map_swapRemove _ _ _).symm

/-- A release of a lock without an entry changes nothing and is warned about once. -/
theorem release_of_findIdx?_eq_none {thread lock : Nat}
    (hfind : (r.heldBy thread).findIdx? (fun h => h.lock = lock) = none) :
    ∃ event, r.release thread lock = (r, [event]) ∧ event.level = .warn := by
  unfold release
  cases hget : r.threads.get? thread with
  | none => exact ⟨_, rfl, rfl⟩
  | some held =>
    have hheld : r.heldBy thread = held := by rw [heldBy, hget]; rfl
    rw [hheld] at hfind
    dsimp only
    rw [hfind]
    exact ⟨_, rfl, rfl⟩

/-- Any other release removes the first entry of its lock, and is not warned about. -/
theorem release_of_findIdx?_eq_some {thread lock i : Nat}
    (hfind : (r.heldBy thread).findIdx? (fun h => h.lock = lock) = some i) :
    r.release thread lock =
      ({ r with threads := r.threads.insert thread (swapRemove (r.heldBy thread) i) }, []) := by
  unfold release
  cases hget : r.threads.get? thread with
  | none => simp [heldBy, hget] at hfind
  | some held =>
    have hheld : r.heldBy thread = held := by rw [heldBy, hget]; rfl
    rw [hheld] at hfind ⊢
    dsimp only
    rw [hfind]

/-- A thread gives a lock back. -/
theorem Mirrors.release (h : Mirrors r l) (thread lock : Nat) :
    Mirrors (r.release thread lock).1
      { l with
        held := Function.update l.held thread (Ledger.dropFirst lock (l.held thread)) } := by
  rw [h.held_eq, dropFirst_map_holding]
  cases hfind : (r.heldBy thread).findIdx? fun h => h.lock = lock with
  | none =>
    -- the thread does not hold the lock
    obtain ⟨event, hrelease, _⟩ := release_of_findIdx?_eq_none hfind
    rw [hrelease, ← h.held_eq, Function.update_eq_self]
    exact h
  | some i =>
    rw [release_of_findIdx?_eq_some hfind]
    exact h.setHeld thread (swapRemove (r.heldBy thread) i) fun k hk =>
      h.held_lt thread k (mem_of_mem_swapRemove hk)

/-! ### Calls and runs -/

/-- A lock is given a label. The class that was remembered for it is forgotten. -/
theorem Mirrors.nameLock (h : Mirrors r l) (lock : Nat) (label : String) :
    Mirrors (r.nameLock lock label)
      { l with names := Function.update l.names lock (some label) } := by
  refine { h with names_eq := fun lock' => ?_, cached := fun lock' c hc => ?_ }
  · change (r.names.insert lock label).get? lock' = Function.update l.names lock (some label) lock'
    rw [Dictionary.get?_insert, Function.update_apply, h.names_eq]
    simp only [eq_comm]
  · change (r.classOfLock.erase lock).get? lock' = some c at hc
    rw [Dictionary.get?_erase] at hc
    split at hc
    · simp at hc
    · next hne =>
      refine (h.cached lock' c hc).trans ?_
      simp [Ledger.labelOf, Function.update_of_ne (Ne.symm hne)]

/-- A call keeps the recorder and the ledger together. -/
theorem Mirrors.perform (h : Mirrors r l) (call : Call) :
    Mirrors (r.perform call).1 (l.step call) := by
  cases call with
  | name lock label =>
    rw [Ledger.step_of_eq_none rfl]
    exact h.nameLock lock label
  | acquire thread lock stack =>
    obtain ⟨c, r', events, hclass, hc, _, hr'⟩ := h.classForLock thread lock stack
    rw [Ledger.step_of_eq_some rfl, Recorder.perform, Recorder.acquire, hclass]
    exact hr'.take thread lock c 0 stack hc
  | acquireLabeled thread lock stack label rank =>
    obtain ⟨c, r', hclass, hc, _, hr'⟩ := h.classForLabel label
    rw [Ledger.step_of_eq_some rfl, Recorder.perform, Recorder.acquireLabeled, hclass]
    exact hr'.take thread lock c rank stack hc
  | mayAcquire thread lock stack =>
    rw [Recorder.perform, Recorder.mayAcquire]
    have hheld := h.held_eq thread
    cases hnil : r.heldBy thread with
    | nil =>
      -- nothing is held, so neither side looks for the class of the lock
      rw [hnil, List.map_nil] at hheld
      have hnone : l.acquisition? (.mayAcquire thread lock stack) = none := if_pos hheld
      rw [Ledger.step_of_eq_none hnone]
      exact h
    | cons k held =>
      have hsome : l.acquisition? (.mayAcquire thread lock stack) =
          some (thread, ⟨lock, l.labelOf lock, 0, stack⟩) := if_neg (by simp [hheld, hnil])
      obtain ⟨c, r', events, hclass, hc, hthreads, hr'⟩ := h.classForLock thread lock stack
      have hnote := hr'.note thread ⟨lock, c, 0, stack⟩ (lt_of_classLabel?_eq_some hc)
      have hsame : r'.heldBy thread = k :: held := by rw [heldBy, hthreads, ← hnil, heldBy]
      have hholding : holding r'.classes ⟨lock, c, 0, stack⟩ =
          ⟨lock, l.labelOf lock, 0, stack⟩ := by simp [holding, hc]
      rw [hsame, hholding] at hnote
      rw [Ledger.step_of_eq_some hsome, hclass]
      exact hnote
  | release thread lock =>
    rw [Ledger.step_of_eq_none rfl]
    exact h.release thread lock
  | intern frames =>
    rw [Ledger.step_of_eq_none rfl]
    exact { h with }

/-- The recorder of a run mirrors the ledger of the run. -/
theorem mirrors_run (table : StackTable) (calls : List Call) :
    Mirrors ((empty table).run calls) (.replay calls) := by
  induction calls using List.reverseRecOn with
  | nil => exact mirrors_empty table
  | append_singleton calls call ih =>
    rw [run_concat, Ledger.replay_concat]
    exact ih.perform call

end LockOrder.Recorder
