import LockOrder.Digraph.Components
import LockOrder.Proofs.Digraph.Reach

/-!
# The depth-first walk

The walk of the first pass keeps a stack on which a node may stand several times. It never looks
below the part of the stack that it works on, so what it does with a stack is what it does with the
upper part, followed by what it does with the lower one. This gives back the recursion that the
stack unrolls: to visit a fresh node is to walk its fresh neighbours and then to leave it.

The order in which nodes are left is used through one property. Take a node `v` and a node `w` that
was left before it. If `w` leads to `v`, then `v` leads back to `w`, or `w` leads to a node that is
left after `v`. Such a node is an ancestor of `v` in the walk: a path from `w` cannot cross from
left nodes to fresh ones without passing through a node that is entered and not yet left.

## Main definitions

* `Digraph.Settled` — what holds between visits
* `Digraph.Walked` — what walking a stack does

## Main results

* `Digraph.walk_append` — a stack is walked part by part
* `Digraph.exists_walked` — the walk does what `Walked` says
* `Digraph.mem_finishOrder` — every node is left
* `Digraph.finishOrder_ranked` — the property of the order in which nodes are left
-/

namespace LockOrder.Digraph

open Relation

variable {next : Array (List Nat)} {stack : List Nat} {marks marks' : Array Mark}
  {order new : List Nat} {u v w : Nat}

/-! ### Equations of the walk -/

/-- The neighbours that are still fresh when a node has been entered. -/
def freshAbove (next : Array (List Nat)) (marks : Array Mark) (v : Nat) : List Nat :=
  (next.getD v []).filter fun w => (marks.setIfInBounds v .entered)[w]? == some .fresh

theorem mem_freshAbove :
    w ∈ freshAbove next marks v ↔
      Along next v w ∧ (marks.setIfInBounds v .entered)[w]? = some .fresh := by
  simp [freshAbove, Along]

theorem walk_nil : walk next [] marks order = (marks, order) := by rw [walk]

theorem walk_cons_of_fresh (hv : marks[v]? = some .fresh) :
    walk next (v :: stack) marks order =
      walk next ((freshAbove next marks v).reverse ++ v :: stack)
        (marks.setIfInBounds v .entered) order := by
  rw [walk]
  split <;> simp_all [freshAbove]

theorem walk_cons_of_entered (hv : marks[v]? = some .entered) :
    walk next (v :: stack) marks order =
      walk next stack (marks.setIfInBounds v .left) (v :: order) := by
  rw [walk]
  split <;> simp_all

theorem walk_cons_of_other (hfresh : marks[v]? ≠ some .fresh)
    (hentered : marks[v]? ≠ some .entered) :
    walk next (v :: stack) marks order = walk next stack marks order := by
  rw [walk]
  split <;> simp_all

/-- A stack is walked from its upper part to its lower one. -/
theorem walk_append (next : Array (List Nat)) (upper lower : List Nat) (marks : Array Mark)
    (order : List Nat) :
    walk next (upper ++ lower) marks order =
      walk next lower (walk next upper marks order).1 (walk next upper marks order).2 := by
  induction upper, marks, order using walk.induct next with
  | case1 marks order => simp [walk_nil]
  | case2 v upper marks order hv marks' above ih =>
    rw [List.cons_append, walk_cons_of_fresh hv, walk_cons_of_fresh hv]
    simpa [above, marks', freshAbove] using ih
  | case3 v upper marks order hv ih =>
    rw [List.cons_append, walk_cons_of_entered hv, walk_cons_of_entered hv, ih]
  | case4 v upper marks order hfresh hentered ih =>
    rw [List.cons_append, walk_cons_of_other hfresh hentered,
      walk_cons_of_other hfresh hentered, ih]

/-- A walk makes no node fresh. -/
theorem count_walk_le (next : Array (List Nat)) (stack : List Nat) (marks : Array Mark)
    (order : List Nat) :
    (walk next stack marks order).1.count .fresh ≤ marks.count .fresh := by
  induction stack, marks, order using walk.induct next with
  | case1 marks order => simp [walk_nil]
  | case2 v stack marks order hv marks' above ih =>
    rw [walk_cons_of_fresh hv]
    exact Nat.le_trans ih (Nat.le_of_lt (count_setIfInBounds_lt hv (by decide)))
  | case3 v stack marks order hv ih =>
    rw [walk_cons_of_entered hv]
    refine Nat.le_trans ih ?_
    obtain ⟨hlt, he⟩ := Array.getElem?_eq_some_iff.mp hv
    rw [Array.setIfInBounds, dif_pos hlt, Array.count_set]
    simp [he]
  | case4 v stack marks order hfresh hentered ih =>
    rw [walk_cons_of_other hfresh hentered]
    exact ih

/-! ### Between visits -/

/-- What holds between visits: the nodes left are those in the order, once each, and none of them
has a fresh neighbour. -/
structure Settled (next : Array (List Nat)) (marks : Array Mark) (order : List Nat) : Prop where
  /-- Every neighbour is a node. -/
  inside : ∀ u v, Along next u v → v < marks.size
  /-- The order holds the nodes that were left. -/
  mem_iff : ∀ v, v ∈ order ↔ marks[v]? = some .left
  /-- No node was left twice. -/
  nodup : order.Nodup
  /-- A node that was left has no fresh neighbour. -/
  closed : ∀ u ∈ order, ∀ v, Along next u v → marks[v]? ≠ some .fresh

/-- A path from a node that was left to a fresh one passes through a node that is entered. -/
theorem Settled.exists_entered (h : Settled next marks order) (hu : u ∈ order)
    (huv : ReflTransGen (Along next) u v) (hv : marks[v]? = some .fresh) :
    ∃ x, marks[x]? = some .entered ∧ ReflTransGen (Along next) u x := by
  induction huv using ReflTransGen.head_induction_on with
  | refl =>
    rw [h.mem_iff, hv] at hu
    simp at hu
  | @head u x hstep _ ih =>
    have hnotFresh := h.closed u hu x hstep
    have hx : x < marks.size := h.inside u x hstep
    cases hmark : marks[x] with
    | fresh => simp [hx, hmark] at hnotFresh
    | entered => exact ⟨x, by simp [hx, hmark], .single hstep⟩
    | left =>
      obtain ⟨y, hy, hxy⟩ := ih ((h.mem_iff x).mpr (by simp [hx, hmark]))
      exact ⟨y, hy, .head hstep hxy⟩

/-- Entering a fresh node leaves nothing more or less in the order. -/
theorem Settled.enter (h : Settled next marks order) (hv : marks[v]? = some .fresh) :
    Settled next (marks.setIfInBounds v .entered) order := by
  have hlt : v < marks.size := (Array.getElem?_eq_some_iff.mp hv).1
  refine ⟨fun u w huw => by simpa using h.inside u w huw, ?_, h.nodup, ?_⟩
  · intro w
    rw [h.mem_iff, Array.getElem?_setIfInBounds]
    by_cases hw : v = w
    · subst hw
      rw [hv, if_pos rfl, if_pos hlt]
      simp
    · simp [hw]
  · intro u hu w huw
    rw [Array.getElem?_setIfInBounds]
    by_cases hw : v = w
    · simp [hw]
    · simpa [hw] using h.closed u hu w huw

/-- Leaving a node that is entered and has no fresh neighbour puts it on the order. -/
theorem Settled.leave (h : Settled next marks order) (hv : marks[v]? = some .entered)
    (hnext : ∀ w, Along next v w → marks[w]? ≠ some .fresh) :
    Settled next (marks.setIfInBounds v .left) (v :: order) := by
  have hlt : v < marks.size := (Array.getElem?_eq_some_iff.mp hv).1
  have hnot : v ∉ order := by
    rw [h.mem_iff, hv]
    simp
  refine ⟨fun u w huw => by simpa using h.inside u w huw, ?mem_iff,
    List.nodup_cons.mpr ⟨hnot, h.nodup⟩, ?closed⟩
  case mem_iff =>
    intro w
    rw [Array.getElem?_setIfInBounds, List.mem_cons, h.mem_iff]
    by_cases hw : v = w
    · simp [hw.symm, hlt]
    · simp [hw, Ne.symm hw]
  case closed =>
    intro u hu w huw
    rw [Array.getElem?_setIfInBounds]
    by_cases hw : v = w
    · simp [hw.symm, hlt]
    · rw [if_neg hw]
      rcases List.mem_cons.mp hu with rfl | hu
      · exact hnext w huw
      · exact h.closed u hu w huw

/-! ### What a walk does -/

/-- What walking a stack does: the nodes `new` are left on top of `order`, and the marks become
`marks'`. -/
structure Walked (next : Array (List Nat)) (stack : List Nat) (marks : Array Mark)
    (order : List Nat) (marks' : Array Mark) (new : List Nat) : Prop where
  /-- The nodes that are entered stay so. -/
  entered : ∀ v : Nat, marks'[v]? = some .entered ↔ marks[v]? = some .entered
  /-- The new nodes are no longer fresh, and all others are if they were. -/
  fresh : ∀ v : Nat, marks'[v]? = some .fresh ↔ marks[v]? = some .fresh ∧ v ∉ new
  /-- The new nodes were fresh. -/
  fresh_of_mem : ∀ v ∈ new, marks[v]? = some .fresh
  /-- What holds between visits holds again. -/
  settled : Settled next marks' (new ++ order)
  /-- No node of the stack is fresh any more. -/
  covers : ∀ v ∈ stack, marks'[v]? ≠ some .fresh
  /-- The new nodes are reached from the stack. -/
  reached : ∀ v ∈ new, ∃ u ∈ stack, ReflTransGen (Along next) u v
  /-- A node left before a new node `v` and leading to it is reached from `v`, or leads to a node
  that is left after `v`. -/
  ranked : ∀ later v earlier, new = later ++ v :: earlier → ∀ w ∈ earlier ++ order,
    ReflTransGen (Along next) w v → ReflTransGen (Along next) v w ∨
      ∃ x, (x ∈ later ∨ marks[x]? = some .entered) ∧ ReflTransGen (Along next) w x

/-- Nothing happens when no node of the stack is fresh. -/
theorem Walked.none (h : Settled next marks order) (hstack : ∀ v ∈ stack, marks[v]? ≠ some .fresh) :
    Walked next stack marks order marks [] where
  entered _ := Iff.rfl
  fresh _ := by simp
  fresh_of_mem _ hv := by simp at hv
  settled := h
  covers := hstack
  reached _ hv := by simp at hv
  ranked later v earlier hnew := by simp at hnew

/-- Walking the upper part of a stack and then the lower one is walking the stack. -/
theorem Walked.append {upper lower : List Nat} {marks₁ marks₂ : Array Mark} {new₁ new₂ : List Nat}
    (h₁ : Walked next upper marks order marks₁ new₁)
    (h₂ : Walked next lower marks₁ (new₁ ++ order) marks₂ new₂) :
    Walked next (upper ++ lower) marks order marks₂ (new₂ ++ new₁) where
  entered v := (h₂.entered v).trans (h₁.entered v)
  fresh v := by
    rw [h₂.fresh, h₁.fresh, List.mem_append]
    tauto
  fresh_of_mem v hv := by
    rcases List.mem_append.mp hv with hv | hv
    · exact ((h₁.fresh v).mp (h₂.fresh_of_mem v hv)).1
    · exact h₁.fresh_of_mem v hv
  settled := by
    rw [List.append_assoc]
    exact h₂.settled
  covers v hv := by
    rcases List.mem_append.mp hv with hv | hv
    · exact fun hfresh => h₁.covers v hv ((h₂.fresh v).mp hfresh).1
    · exact h₂.covers v hv
  reached v hv := by
    rcases List.mem_append.mp hv with hv | hv
    · obtain ⟨u, hu, huv⟩ := h₂.reached v hv
      exact ⟨u, List.mem_append_right _ hu, huv⟩
    · obtain ⟨u, hu, huv⟩ := h₁.reached v hv
      exact ⟨u, List.mem_append_left _ hu, huv⟩
  ranked later v earlier hnew w hw hwv := by
    rcases List.append_eq_append_iff.mp hnew with ⟨rest, rfl, hrest⟩ | ⟨rest, hrest, htail⟩
    · -- `v` was left while the upper part was walked
      rcases h₁.ranked rest v earlier hrest w hw hwv with hback | ⟨x, hx, hwx⟩
      · exact .inl hback
      · refine .inr ⟨x, hx.imp_left fun hx => List.mem_append_right _ hx, hwx⟩
    · cases rest with
      | nil =>
        simp only [List.append_nil, List.nil_append] at hrest htail
        rcases h₁.ranked [] v earlier (by simp [htail]) w hw hwv with hback | ⟨x, hx, hwx⟩
        · exact .inl hback
        · exact .inr ⟨x, hx.imp_left fun hx => by simp at hx, hwx⟩
      | cons y rest =>
        -- `v` was left while the lower part was walked
        obtain ⟨rfl, rfl⟩ : v = y ∧ earlier = rest ++ new₁ := by simpa using htail
        rcases h₂.ranked later v rest hrest w (by simpa using hw) hwv with hback | ⟨x, hx, hwx⟩
        · exact .inl hback
        · exact .inr ⟨x, hx.imp_right (h₁.entered x).mp, hwx⟩

/-- A node that is entered, whose fresh neighbours are walked, and that is then left is visited. -/
theorem Walked.visit (h : Settled next marks order) (hv : marks[v]? = some .fresh)
    (hnew : Walked next (freshAbove next marks v).reverse (marks.setIfInBounds v .entered) order
      marks' new) :
    Walked next [v] marks order (marks'.setIfInBounds v .left) (v :: new) := by
  have hlt : v < marks.size := (Array.getElem?_eq_some_iff.mp hv).1
  have hmark : ∀ w, v ≠ w → (marks.setIfInBounds v .entered)[w]? = marks[w]? := by
    intro w hw
    simp [hw]
  have hmarkSelf : (marks.setIfInBounds v .entered)[v]? = some .entered := by
    simp [hlt]
  have hself : marks'[v]? = some .entered := (hnew.entered v).mpr hmarkSelf
  have hlt' : v < marks'.size := (Array.getElem?_eq_some_iff.mp hself).1
  have hleft : ∀ w, (marks'.setIfInBounds v .left)[w]? =
      if v = w then some .left else marks'[w]? := by
    intro w
    simp [Array.getElem?_setIfInBounds, hlt']
  have hnotNew : v ∉ new := fun hmem => by
    simpa [hmarkSelf] using hnew.fresh_of_mem v hmem
  -- The fresh neighbours of `v` were on the stack, so the walk has taken them all.
  have hnext : ∀ w, Along next v w → marks'[w]? ≠ some .fresh := by
    intro w hvw hfresh
    have hbefore := ((hnew.fresh w).mp hfresh).1
    exact hnew.covers w (List.mem_reverse.mpr (mem_freshAbove.mpr ⟨hvw, hbefore⟩)) hfresh
  have hfromSelf : ∀ w ∈ new, ReflTransGen (Along next) v w := by
    intro w hw
    obtain ⟨u, hu, huw⟩ := hnew.reached w hw
    exact .head (mem_freshAbove.mp (List.mem_reverse.mp hu)).1 huw
  refine ⟨?entered, ?fresh, ?fresh_of_mem, hnew.settled.leave hself hnext, ?covers, ?reached,
    ?ranked⟩
  case entered =>
    intro w
    rw [hleft]
    by_cases hw : v = w
    · subst hw
      simp [hv]
    · rw [if_neg hw, hnew.entered, hmark w hw]
  case fresh =>
    intro w
    rw [hleft]
    by_cases hw : v = w
    · simp [hw]
    · rw [if_neg hw, hnew.fresh, hmark w hw, List.mem_cons]
      simp [Ne.symm hw]
  case fresh_of_mem =>
    intro w hw
    rcases List.mem_cons.mp hw with rfl | hw
    · exact hv
    · rw [← hmark w fun heq => hnotNew (heq ▸ hw)]
      exact hnew.fresh_of_mem w hw
  case covers =>
    intro w hw
    rw [hleft, List.mem_singleton.mp hw]
    simp
  case reached =>
    intro w hw
    refine ⟨v, List.mem_singleton_self v, ?_⟩
    rcases List.mem_cons.mp hw with rfl | hw
    · exact .refl
    · exact hfromSelf w hw
  case ranked =>
    intro later x earlier hsplit w hw hwx
    cases later with
    | nil =>
      obtain ⟨rfl, rfl⟩ : v = x ∧ new = earlier := by simpa using hsplit
      rcases List.mem_append.mp hw with hw | hw
      · -- `w` was left during the visit of `v`
        exact .inl (hfromSelf w hw)
      · -- `w` was left before `v` was entered
        obtain ⟨y, hy, hwy⟩ := h.exists_entered hw hwx hv
        exact .inr ⟨y, .inr hy, hwy⟩
    | cons y later =>
      -- `x` was left during the visit of `v`, and among the entered nodes only `v` is new.
      obtain ⟨rfl, rfl⟩ : v = y ∧ new = later ++ x :: earlier := by simpa using hsplit
      rcases hnew.ranked later x earlier rfl w hw hwx with hback | ⟨y, hy, hwy⟩
      · exact .inl hback
      · refine .inr ⟨y, ?_, hwy⟩
        by_cases hyv : v = y
        · exact .inl (List.mem_cons.mpr (.inl hyv.symm))
        · rw [hmark y hyv] at hy
          exact hy.imp_left fun hy => List.mem_cons_of_mem v hy

/-- A visit of a fresh node, given what walking its fresh neighbours does. -/
theorem walk_singleton_of_fresh (hv : marks[v]? = some .fresh)
    (hwalk : walk next (freshAbove next marks v).reverse (marks.setIfInBounds v .entered) order =
      (marks', new ++ order)) (hself : marks'[v]? = some .entered) :
    walk next [v] marks order = (marks'.setIfInBounds v .left, v :: (new ++ order)) := by
  rw [walk_cons_of_fresh hv, walk_append, hwalk, walk_cons_of_entered hself, walk_nil]

/-- The walk does what `Walked` says, on a stack without entered nodes. -/
theorem exists_walked (next : Array (List Nat)) (stack : List Nat) (marks : Array Mark)
    (order : List Nat) (hstack : ∀ v ∈ stack, marks[v]? ≠ some .entered)
    (h : Settled next marks order) :
    ∃ marks' new, walk next stack marks order = (marks', new ++ order) ∧
      Walked next stack marks order marks' new := by
  -- the outer induction is for the neighbours of a visited node, the inner one for the stack
  obtain ⟨n, hn⟩ : ∃ n, marks.count .fresh ≤ n := ⟨_, Nat.le_refl _⟩
  induction n using Nat.strongRecOn generalizing stack marks order with
  | ind n ihn =>
  induction stack generalizing marks order with
  | nil => exact ⟨marks, [], walk_nil, .none h (by simp)⟩
  | cons v stack ih =>
    have hv := hstack v List.mem_cons_self
    obtain ⟨marks₁, new₁, hwalk₁, hdone₁⟩ :
        ∃ marks₁ new₁, walk next [v] marks order = (marks₁, new₁ ++ order) ∧
          Walked next [v] marks order marks₁ new₁ := by
      by_cases hfresh : marks[v]? = some .fresh
      · have hfewer := count_setIfInBounds_lt hfresh (b := .entered) (by decide)
        obtain ⟨marks', new, hwalk, hnew⟩ := ihn _ (Nat.lt_of_lt_of_le hfewer hn)
          (freshAbove next marks v).reverse (marks.setIfInBounds v .entered) order
          (fun w hw => by simp [(mem_freshAbove.mp (List.mem_reverse.mp hw)).2])
          (h.enter hfresh) (Nat.le_refl _)
        have hlt : v < marks.size := (Array.getElem?_eq_some_iff.mp hfresh).1
        have hself : marks'[v]? = some .entered := (hnew.entered v).mpr (by simp [hlt])
        exact ⟨_, v :: new, walk_singleton_of_fresh hfresh hwalk hself, .visit h hfresh hnew⟩
      · refine ⟨marks, [], ?_, .none h (by simpa using hfresh)⟩
        rw [walk_cons_of_other hfresh hv, walk_nil, List.nil_append]
    have hcount : marks₁.count .fresh ≤ n := by
      have hle := count_walk_le next [v] marks order
      rw [hwalk₁] at hle
      exact Nat.le_trans hle hn
    obtain ⟨marks₂, new₂, hwalk₂, hdone₂⟩ := ih marks₁ (new₁ ++ order)
      (fun w hw => by
        rw [Ne, hdone₁.entered]
        exact hstack w (List.mem_cons_of_mem v hw))
      hdone₁.settled hcount
    refine ⟨marks₂, new₂ ++ new₁, ?_, hdone₁.append hdone₂⟩
    rw [← List.singleton_append, walk_append, hwalk₁, hwalk₂, List.append_assoc]

/-! ### The order in which nodes are left -/

/-- Walking from every root in turn is walking the list of roots as a stack. -/
theorem walkAll_eq_walk (roots : List Nat) (marks : Array Mark) (order : List Nat)
    (h : Settled next marks order) (hentered : ∀ v : Nat, marks[v]? ≠ some .entered) :
    walkAll next roots marks order = (walk next roots marks order).2 := by
  induction roots generalizing marks order with
  | nil => rw [walkAll, walk_nil]
  | cons v roots ih =>
    obtain ⟨marks', new, hwalk, hdone⟩ :=
      exists_walked next [v] marks order (fun w _ => hentered w) h
    rw [← List.singleton_append, walk_append, hwalk, ← ih marks' (new ++ order) hdone.settled
      (fun w => by rw [Ne, hdone.entered]; exact hentered w), List.singleton_append, walkAll]
    by_cases hfresh : marks[v]? = some .fresh
    · rw [if_pos hfresh, hwalk]
    · have hsame : walk next [v] marks order = (marks, order) := by
        rw [walk_cons_of_other hfresh (hentered v), walk_nil]
      obtain ⟨rfl, hnew⟩ := Prod.mk.inj (hwalk.symm.trans hsame)
      rw [if_neg hfresh, hnew]

theorem replicate_ne_entered (g : Digraph) (v : Nat) :
    (Array.replicate g.order Mark.fresh)[v]? ≠ some .entered := by
  simp [Array.getElem?_replicate]

/-- Before the first visit no node was left. -/
theorem settled_replicate (g : Digraph) :
    Settled g.predecessors (Array.replicate g.order .fresh) [] := by
  refine ⟨fun u v huv => ?_, fun v => ?_, List.nodup_nil, by simp⟩
  · simpa using (mem_predecessors.mp huv).1
  · simp [Array.getElem?_replicate]

/-- The first pass walks the list of all nodes as a stack. -/
theorem finishOrder_eq_walk (g : Digraph) :
    g.finishOrder = (walk g.predecessors (List.range g.order)
      (Array.replicate g.order .fresh) []).2 :=
  walkAll_eq_walk _ _ _ g.settled_replicate g.replicate_ne_entered

/-- The first pass, in the terms of `Walked`. -/
theorem exists_walked_finishOrder (g : Digraph) :
    ∃ marks', Walked g.predecessors (List.range g.order) (Array.replicate g.order .fresh) []
      marks' g.finishOrder := by
  obtain ⟨marks', new, hwalk, hdone⟩ := exists_walked g.predecessors (List.range g.order) _ []
    (fun v _ => g.replicate_ne_entered v) g.settled_replicate
  rw [List.append_nil] at hwalk
  refine ⟨marks', ?_⟩
  rw [finishOrder_eq_walk, hwalk]
  exact hdone

/-- Every node is left. -/
theorem mem_finishOrder {g : Digraph} : v ∈ g.finishOrder ↔ v < g.order := by
  obtain ⟨marks', hdone⟩ := g.exists_walked_finishOrder
  constructor
  · intro hv
    have hfresh := hdone.fresh_of_mem v hv
    by_contra hlt
    simp [hlt] at hfresh
  · intro hlt
    have hcovers := hdone.covers v (List.mem_range.mpr hlt)
    by_contra hv
    exact hcovers ((hdone.fresh v).mpr ⟨by simp [hlt], hv⟩)

/-- If `v` reaches a node `w` that was left before it, then `w` reaches `v`, or `w` is reached from
a node that was left after `v`. -/
theorem finishOrder_ranked {g : Digraph} (hg : g.Closed) {later earlier : List Nat}
    (hsplit : g.finishOrder = later ++ v :: earlier) (hw : w ∈ earlier) (hvw : g.Reaches v w) :
    g.Reaches w v ∨ ∃ x ∈ later, g.Reaches x w := by
  obtain ⟨marks', hdone⟩ := g.exists_walked_finishOrder
  have hmem : ∀ {x}, x ∈ later ∨ x = v ∨ x ∈ earlier → x < g.order := by
    intro x hx
    rw [← mem_finishOrder, hsplit]
    simpa using hx
  have hwalk := (reflTransGen_predecessors_iff hg (hmem (.inr (.inl rfl)))).mpr hvw
  rcases hdone.ranked later v earlier hsplit w (by simpa using hw) hwalk with hback | ⟨x, hx, hwx⟩
  · exact .inl ((reflTransGen_predecessors_iff hg (hmem (.inr (.inr hw)))).mp hback)
  · rcases hx with hx | hx
    · exact .inr ⟨x, hx, (reflTransGen_predecessors_iff hg (hmem (.inl hx))).mp hwx⟩
    · simp [Array.getElem?_replicate] at hx

end LockOrder.Digraph
