import LockOrder.Proofs.Recorder.Held

/-!
# What a recorder remembers fits together

A recorder keeps the same facts in several places: a class is found by its label and has that label,
the class of a lock is remembered so that its label need not be looked up again, and a pair of
stacks is found through the bucket of its hash. Each call changes some of these places only. When a
lock is given a new label, the class that was remembered for it is forgotten, while locks that are
held keep the class that they were taken under. After every call the places still fit together.

## Main definitions

* `Evidence.Indexed` — the buckets of evidence list each pair once, under its hash
* `Recorder.DistinctKeys` — no dictionary of a recorder has a key twice
* `Recorder.Coherent` — the parts of a recorder fit together
* `Recorder.forget` — a recorder that does not remember the class of a lock

## Main results

* `Evidence.indexed_ofSightings` — evidence is indexed, whatever was seen
* `Recorder.DistinctKeys.perform` — a call keeps keys distinct
* `Recorder.coherent_run` — a recorder is coherent after every run
* `Recorder.Coherent.classForLock_forget` — to remember the class of a lock changes no answer
-/

namespace LockOrder

/-! ### Evidence and its buckets -/

namespace Evidence

variable {hash : Stack → UInt64} {e : Evidence} {seen : List (Stack × Stack)} {i : Nat}

/-- The positions that are filed under a hash. -/
def bucket (e : Evidence) (key : UInt64) : List Nat := (e.buckets.get? key).getD []

/-- The buckets of evidence are an index of its pairs. -/
structure Indexed (hash : Stack → UInt64) (e : Evidence) : Prop where
  /-- No hash has two buckets. -/
  distinct : e.buckets.Distinct
  /-- All positions that are filed are positions of pairs. -/
  inside : ∀ entry ∈ e.buckets.entries, ∀ i ∈ entry.2, i < e.pairs.size
  /-- A pair is filed once under its hash, and under no other one. -/
  filed : ∀ (i : Nat) pair, e.pairs[i]? = some pair → ∀ key, (e.bucket key).count i =
    if hash pair.first ^^^ hash pair.second = key then 1 else 0
  /-- No two pairs have the same stacks. -/
  nodup : (e.pairs.toList.map StackPair.key).Nodup
  /-- Every pair was seen. -/
  seen : ∀ pair ∈ e.pairs, 1 ≤ pair.count

/-- No bucket is listed twice, and no position twice in one. -/
theorem Represents.nodup_addWith (h : Represents hash e seen) (hdistinct : e.buckets.Distinct)
    (hnodup : ∀ key, (e.bucket key).Nodup) (a b : Stack) :
    (e.addWith hash a b).buckets.Distinct ∧ ∀ key, ((e.addWith hash a b).bucket key).Nodup := by
  cases hfind : ((e.buckets.get? (hash a ^^^ hash b)).getD []).find? (e.matchesAt a b) with
  | some i =>
    rw [addWith_of_find?_eq_some hfind]
    exact ⟨hdistinct, hnodup⟩
  | none =>
    rw [addWith_of_find?_eq_none hfind]
    refine ⟨hdistinct.insert _ _, fun key => ?_⟩
    rw [bucket, Dictionary.get?_insert]
    split
    · -- the new position is behind all that are filed
      have hnew : e.pairs.size ∉ e.bucket (hash a ^^^ hash b) := by
        intro hmem
        obtain ⟨pair, hpair, _⟩ := (h.bucket_iff _ _).mp hmem
        exact Nat.lt_irrefl _ (Array.getElem?_eq_some_iff.mp hpair).1
      exact (hnodup _).append (List.nodup_singleton _) (by simpa using hnew)
    · exact hnodup key

theorem nodup_ofSightingsWith (hash : Stack → UInt64) (seen : List (Stack × Stack)) :
    (ofSightingsWith hash seen).buckets.Distinct ∧
      ∀ key, ((ofSightingsWith hash seen).bucket key).Nodup := by
  induction seen using List.reverseRecOn with
  | nil => exact ⟨Dictionary.distinct_empty, fun key => List.nodup_nil⟩
  | append_singleton seen pair ih =>
    rw [ofSightingsWith, List.foldl_append]
    exact (represents_ofSightingsWith hash seen).nodup_addWith ih.1 ih.2 pair.1 pair.2

/-- Evidence is indexed, whatever was seen and whatever the hash is. -/
theorem indexed_ofSightingsWith (hash : Stack → UInt64) (seen : List (Stack × Stack)) :
    Indexed hash (ofSightingsWith hash seen) := by
  have hrep := represents_ofSightingsWith hash seen
  obtain ⟨hdistinct, hnodup⟩ := nodup_ofSightingsWith hash seen
  generalize ofSightingsWith hash seen = e at *
  refine ⟨hdistinct, fun entry hentry i hi => ?_, fun i pair hpair key => ?_, ?_, ?_⟩
  · have hget : e.buckets.get? entry.1 = some entry.2 :=
      (Dictionary.mem_entries_iff hdistinct).mp hentry
    obtain ⟨pair, hpair, _⟩ := (hrep.bucket_iff entry.1 i).mp (by rwa [hget])
    exact (Array.getElem?_eq_some_iff.mp hpair).1
  · have hmem : i ∈ e.bucket key ↔ hash pair.first ^^^ hash pair.second = key := by
      rw [bucket, hrep.bucket_iff]
      simp [hpair]
    rw [(hnodup key).count]
    exact if_congr hmem rfl rfl
  · rw [hrep.pairs_eq, map_key_counted]
    exact nodup_eraseDups seen
  · intro pair hpair
    rw [← Array.mem_toList_iff, hrep.pairs_eq] at hpair
    exact (mem_counted_iff.mp hpair).1

theorem indexed_ofSightings (seen : List (Stack × Stack)) :
    Indexed Stack.hash (ofSightings seen) :=
  indexed_ofSightingsWith Stack.hash seen

end Evidence

/-! ### Keys -/

namespace Recorder

variable {r : Recorder} {l : Ledger} {lock : Nat}

/-- No dictionary of a recorder has a key twice. -/
structure DistinctKeys (r : Recorder) : Prop where
  threads : r.threads.Distinct
  names : r.names.Distinct
  classOfLock : r.classOfLock.Distinct
  classOfLabel : r.classOfLabel.Distinct

theorem distinctKeys_empty (table : StackTable) : (empty table).DistinctKeys :=
  ⟨Dictionary.distinct_empty, Dictionary.distinct_empty, Dictionary.distinct_empty,
    Dictionary.distinct_empty⟩

theorem DistinctKeys.classForLabel (h : r.DistinctKeys) (label : String) :
    (r.classForLabel label).2.DistinctKeys := by
  unfold Recorder.classForLabel
  cases r.classOfLabel.get? label with
  | some c => exact h
  | none => exact { h with classOfLabel := h.classOfLabel.insert _ _ }

theorem DistinctKeys.classForLock (h : r.DistinctKeys) (thread lock : Nat) (stack : Stack) :
    (r.classForLock thread lock stack).2.1.DistinctKeys := by
  have hinsert : ∀ label c, DistinctKeys
      { (r.classForLabel label).2 with
        classOfLock := (r.classForLabel label).2.classOfLock.insert lock c } := fun label c =>
    { h.classForLabel label with classOfLock := (h.classForLabel label).classOfLock.insert _ _ }
  unfold Recorder.classForLock
  cases r.classOfLock.get? lock with
  | some c => exact h
  | none => cases r.names.get? lock <;> exact hinsert _ _

/-- A call keeps keys distinct. -/
theorem DistinctKeys.perform (h : r.DistinctKeys) (call : Call) :
    (r.perform call).1.DistinctKeys := by
  cases call with
  | name lock label =>
    exact { h with names := h.names.insert _ _, classOfLock := h.classOfLock.erase _ }
  | acquire thread lock stack =>
    have hclass := h.classForLock thread lock stack
    exact { hclass with threads := hclass.threads.insert _ _ }
  | acquireLabeled thread lock stack label rank =>
    have hclass := h.classForLabel label
    exact { hclass with threads := hclass.threads.insert _ _ }
  | mayAcquire thread lock stack =>
    rw [Recorder.perform]
    by_cases hheld : r.heldBy thread = []
    · rwa [mayAcquire_of_eq_nil hheld]
    · rw [mayAcquire_of_ne_nil hheld]
      exact { h.classForLock thread lock stack with }
  | release thread lock =>
    rw [Recorder.perform]
    cases hfind : (r.heldBy thread).findIdx? fun h => h.lock = lock with
    | none =>
      obtain ⟨event, hrelease, _⟩ := release_of_findIdx?_eq_none hfind
      rwa [hrelease]
    | some i =>
      rw [release_of_findIdx?_eq_some hfind]
      exact { h with threads := h.threads.insert _ _ }
  | intern frames => exact { h with }

theorem distinctKeys_run (table : StackTable) (calls : List Call) :
    ((empty table).run calls).DistinctKeys := by
  induction calls using List.reverseRecOn with
  | nil => exact distinctKeys_empty table
  | append_singleton calls call ih =>
    rw [run_concat]
    exact ih.perform call

/-! ### Coherence -/

/-- The label that a lock is taken under: the one given last, or its number. -/
def lockLabel (r : Recorder) (lock : Nat) : String :=
  (r.names.get? lock).getD ("0x" ++ String.ofList (Nat.toDigits 16 lock))

/-- The parts of a recorder fit together. -/
structure Coherent (r : Recorder) : Prop where
  /-- No dictionary has a key twice. -/
  keys : r.DistinctKeys
  /-- The class of a label is the one that has it. -/
  label_iff : ∀ label c, r.classOfLabel.get? label = some c ↔ classLabel? r.classes c = some label
  /-- A class that is remembered for a lock has the label of the lock. -/
  cached : ∀ entry ∈ r.classOfLock.entries,
    classLabel? r.classes entry.2 = some (r.lockLabel entry.1)
  /-- Locks are held under classes. -/
  held_lt : ∀ entry ∈ r.threads.entries, ∀ h ∈ entry.2, h.lockClass < r.classes.size
  /-- The evidence of a class has one entry for each target. -/
  out_distinct : ∀ k ∈ r.classes, k.out.Distinct
  /-- Every target is a class. -/
  target_lt : ∀ k ∈ r.classes, ∀ entry ∈ k.out.entries, entry.1 < r.classes.size
  /-- All evidence is indexed. -/
  indexed : ∀ k ∈ r.classes, ∀ entry ∈ k.out.entries, entry.2.Indexed Stack.hash

theorem Mirrors.labelOf_eq (h : Mirrors r l) (lock : Nat) : l.labelOf lock = r.lockLabel lock := by
  rw [Ledger.labelOf, lockLabel, h.names_eq]

/-- Evidence that stands for a log is indexed. -/
theorem Tracks.indexed {classes : Array LockClass} {log : List Sighting} {c d : Nat} {k : LockClass}
    (h : Tracks classes log) (hk : classes[c]? = some k) (hd : d < classes.size) :
    ((k.out.get? d).getD .empty).Indexed Stack.hash := by
  obtain ⟨B, hB⟩ := exists_classLabel?_of_lt hd
  rw [h.evidence c k d B hk hB, evidence?_getD]
  exact Evidence.indexed_ofSightings _

/-- A recorder that mirrors a ledger is coherent. -/
theorem Mirrors.coherent (h : Mirrors r l) (hkeys : r.DistinctKeys) : r.Coherent := by
  -- as keys are distinct, an entry that stands in a dictionary is the one that is found there
  have hout : ∀ {c : Nat} {k : LockClass}, r.classes[c]? = some k → ∀ entry ∈ k.out.entries,
      k.out.get? entry.1 = some entry.2 := fun {c k} hk entry hentry =>
    (Dictionary.mem_entries_iff (h.tracks.distinct c k hk)).mp hentry
  refine ⟨hkeys, h.label_iff, ?cached, ?held_lt, ?out_distinct, ?target_lt, ?indexed⟩
  case cached =>
    intro entry hentry
    rw [← h.labelOf_eq]
    exact h.cached _ _ ((Dictionary.mem_entries_iff hkeys.classOfLock).mp hentry)
  case held_lt =>
    intro entry hentry
    have hheld : r.heldBy entry.1 = entry.2 := by
      rw [heldBy, (Dictionary.mem_entries_iff hkeys.threads).mp hentry, Option.getD_some]
    rw [← hheld]
    exact h.held_lt entry.1
  case out_distinct =>
    intro k hk
    obtain ⟨c, hc⟩ := Array.mem_iff_getElem?.mp hk
    exact h.tracks.distinct c k hc
  case target_lt =>
    intro k hk entry hentry
    obtain ⟨c, hc⟩ := Array.mem_iff_getElem?.mp hk
    exact h.tracks.inside c k hc _ _ (hout hc entry hentry)
  case indexed =>
    intro k hk entry hentry
    obtain ⟨c, hc⟩ := Array.mem_iff_getElem?.mp hk
    have hget := hout hc entry hentry
    have hindexed := h.tracks.indexed hc (h.tracks.inside c k hc _ _ hget)
    rwa [hget, Option.getD_some] at hindexed

/-- A recorder is coherent after every run. -/
theorem coherent_run (table : StackTable) (calls : List Call) :
    ((empty table).run calls).Coherent :=
  (mirrors_run table calls).coherent (distinctKeys_run table calls)

/-- A lock is given another label while it is held. It stays held under the class of the old one,
and the class that is remembered for it from then on has the new one. -/
example :
    let r := (empty .empty).run
      [.name 7 "old", .acquire 1 7 ⟨[]⟩, .name 7 "new", .acquire 2 7 ⟨[]⟩]
    r.classes.toList.map LockClass.label = ["old", "new"] ∧
      (r.heldBy 1).map Held.lockClass = [0] ∧ r.classOfLock.get? 7 = some 1 := by
  decide

/-! ### What follows -/

/-- No two classes share a label. -/
theorem Coherent.nodup_labels (h : r.Coherent) :
    (r.classes.toList.map LockClass.label).Nodup := by
  have hget : ∀ c : Nat, (r.classes.toList.map LockClass.label)[c]? = classLabel? r.classes c :=
    fun c => by simp [classLabel?]
  rw [List.nodup_iff_getElem?_ne_getElem?]
  intro c d hlt hd heq
  have hclass : d < r.classes.size := by simpa using hd
  obtain ⟨A, hA⟩ := exists_classLabel?_of_lt hclass
  rw [hget, hget, hA] at heq
  -- both are the class that is found by the label
  have hsame := ((h.label_iff A c).mpr heq).symm.trans ((h.label_iff A d).mpr hA)
  exact Nat.ne_of_lt hlt (Option.some.inj hsame)

/-- Only classes are remembered for locks. -/
theorem Coherent.cached_lt (h : r.Coherent) :
    ∀ entry ∈ r.classOfLock.entries, entry.2 < r.classes.size :=
  fun entry hentry => lt_of_classLabel?_eq_some (h.cached entry hentry)

/-- A recorder that does not remember the class of a lock. -/
def forget (r : Recorder) (lock : Nat) : Recorder :=
  { r with classOfLock := r.classOfLock.erase lock }

theorem classForLabel_forget (r : Recorder) (lock : Nat) (label : String) :
    (r.forget lock).classForLabel label =
      ((r.classForLabel label).1, (r.classForLabel label).2.forget lock) := by
  have hsame : (r.forget lock).classOfLabel = r.classOfLabel := rfl
  unfold classForLabel
  rw [hsame]
  cases r.classOfLabel.get? label <;> rfl

theorem classForLock_of_eq_some {c : Nat} (hcached : r.classOfLock.get? lock = some c)
    (thread : Nat) (stack : Stack) : r.classForLock thread lock stack = (c, r, []) := by
  unfold classForLock
  rw [hcached]

/-- A class that is not remembered is found by the label of the lock. -/
theorem classForLock_of_eq_none (hnone : r.classOfLock.get? lock = none) (thread : Nat)
    (stack : Stack) :
    ∃ events, r.classForLock thread lock stack =
      ((r.classForLabel (r.lockLabel lock)).1,
        { (r.classForLabel (r.lockLabel lock)).2 with
          classOfLock := (r.classForLabel (r.lockLabel lock)).2.classOfLock.insert lock
            (r.classForLabel (r.lockLabel lock)).1 },
        events) := by
  unfold classForLock
  rw [hnone, lockLabel, ← Event.hexText_eq]
  cases r.names.get? lock <;> exact ⟨_, rfl⟩

/-- The class that is remembered for a lock is the one that is found by the label of the lock. -/
theorem Coherent.classForLabel_of_cached (h : r.Coherent) {c : Nat}
    (hcached : r.classOfLock.get? lock = some c) :
    r.classForLabel (r.lockLabel lock) = (c, r) := by
  have hentry : (lock, c) ∈ r.classOfLock.entries :=
    (Dictionary.mem_entries_iff h.keys.classOfLock).mpr hcached
  have hfound := (h.label_iff _ _).mpr (h.cached _ hentry)
  unfold classForLabel
  rw [hfound]

/-- To look a class up afresh gives the class that was remembered, and leaves the same recorder, in
which the remembered classes may be listed in another order. -/
theorem Coherent.classForLock_forget (h : r.Coherent) (thread lock : Nat) (stack : Stack) :
    ((r.forget lock).classForLock thread lock stack).1 = (r.classForLock thread lock stack).1 ∧
      ∃ cache, ((r.forget lock).classForLock thread lock stack).2.1 =
          { (r.classForLock thread lock stack).2.1 with classOfLock := cache } ∧
        ∀ k, cache.get? k = (r.classForLock thread lock stack).2.1.classOfLock.get? k := by
  have hforgotten : (r.forget lock).classOfLock.get? lock = none := by
    rw [forget, Dictionary.get?_erase, if_pos rfl]
  have hlabel : (r.forget lock).lockLabel lock = r.lockLabel lock := rfl
  obtain ⟨events, hfresh⟩ := classForLock_of_eq_none hforgotten thread stack
  rw [hfresh, hlabel, classForLabel_forget]
  cases hcached : r.classOfLock.get? lock with
  | some c =>
    -- the label leads to the class that was remembered, so no class is made
    rw [classForLock_of_eq_some hcached, h.classForLabel_of_cached hcached]
    refine ⟨rfl, _, rfl, fun k => ?_⟩
    rw [Dictionary.get?_insert, forget, Dictionary.get?_erase]
    split
    · next hk => rw [← hk, hcached]
    · rfl
  | none =>
    -- nothing was remembered, so both look the label up
    obtain ⟨events', hfound⟩ := classForLock_of_eq_none hcached thread stack
    rw [hfound]
    refine ⟨rfl, _, rfl, fun k => ?_⟩
    rw [Dictionary.get?_insert, Dictionary.get?_insert, forget, Dictionary.get?_erase]
    split <;> rfl

end Recorder

end LockOrder
