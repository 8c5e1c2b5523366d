import Fluxion.Proofs.Expr.Shape

/-!
# The walk that finds the depth ends

The depth of a tree is found without recursion into the tree, on a walk with the deepest level
so far and a work list of subtrees with their levels.  `Turn` is one turn of the walk.  A turn
takes one node off what is pending, so there are as many turns as nodes; and it keeps what the
state stands for (`DepthWalk.reach`), the deepest level so far together with the levels that
are reached from the pending subtrees.  At the end nothing is pending, and the deepest level is
the depth that the shape of the tree gives: `depth_eq_structural`.
-/

namespace Fluxion.Expr

variable {α : Type}

/-- A state of the walk: the deepest level so far and the work list. -/
structure DepthWalk (α : Type) where
  deepest : ℕ
  pending : List (Expr α × ℕ)

/-- The walk takes the first subtree off its work list. -/
inductive Turn : DepthWalk α → DepthWalk α → Prop where
  | pop (deepest : ℕ) (e : Expr α) (level : ℕ) (rest : List (Expr α × ℕ)) :
      Turn ⟨deepest, (e, level) :: rest⟩ ⟨max deepest level, push e level rest⟩

/-- So many turns lead from one state to the other. -/
inductive Turns : ℕ → DepthWalk α → DepthWalk α → Prop where
  | done (w : DepthWalk α) : Turns 0 w w
  | next {n : ℕ} {w v u : DepthWalk α} (h : Turn w v) (hrest : Turns n v u) : Turns (n + 1) w u

def DepthWalk.start (e : Expr α) : DepthWalk α :=
  ⟨0, [(e, 1)]⟩

def DepthWalk.size (w : DepthWalk α) : ℕ :=
  pendingSize w.pending

/-- The deepest level that the walk has seen or will see. -/
def DepthWalk.reach (w : DepthWalk α) : ℕ :=
  pendingDepth w.deepest w.pending

/-! ## Turns -/

variable {w v u : DepthWalk α} {n : ℕ}

/-- A turn takes one node off what is pending. -/
theorem Turn.size_eq (h : Turn w v) : v.size + 1 = w.size := by
  cases h with
  | pop deepest e level rest => exact pendingSize_push e level rest

/-- A turn loses no level: what was seen goes into the record, and what will be seen stays on the
list. -/
theorem Turn.reach_eq (h : Turn w v) : v.reach = w.reach := by
  cases h with
  | pop deepest e level rest => exact pendingDepth_push deepest e level rest

theorem Turns.size_eq (h : Turns n w u) : u.size + n = w.size := by
  induction h with
  | done w => rfl
  | next hturn _ ih => rw [← hturn.size_eq, ← ih, Nat.add_assoc]

/-- The level that a walk will reach is the same from any of its states. -/
theorem Turns.reach_eq (h : Turns n w u) : u.reach = w.reach := by
  induction h with
  | done w => rfl
  | next hturn _ ih => exact ih.trans hturn.reach_eq

/-- The walk goes on until nothing is pending. -/
theorem exists_turns (w : DepthWalk α) : ∃ deepest, Turns w.size w ⟨deepest, []⟩ := by
  obtain ⟨deepest, pending⟩ := w
  induction hsize : pendingSize pending using Nat.strongRecOn generalizing deepest pending with
  | ind size ih =>
      cases pending with
      | nil =>
          obtain rfl : 0 = size := hsize
          exact ⟨deepest, .done _⟩
      | cons entry rest =>
          obtain ⟨e, level⟩ := entry
          have hturn := Turn.pop deepest e level rest
          have hless : pendingSize (push e level rest) < size := by
            rw [← hsize]
            exact Nat.lt_of_succ_le (Nat.le_of_eq hturn.size_eq)
          obtain ⟨final, hturns⟩ := ih _ hless _ _ rfl
          refine ⟨final, ?_⟩
          rw [← hturn.size_eq]
          exact .next hturn hturns

theorem DepthWalk.reach_start (e : Expr α) : (start e).reach = e.depth :=
  (deepestOf_eq_pendingDepth 0 [(e, 1)]).symm

/-! ## The depth of a tree and of its subtrees -/

theorem exists_height_eq_heightList {trees : List (Expr α)} (h : trees ≠ []) :
    ∃ c ∈ trees, c.height = heightList trees := by
  induction trees with
  | nil => exact absurd rfl h
  | cons a rest ih =>
      rw [heightList]
      by_cases hle : heightList rest ≤ a.height
      · exact ⟨a, List.mem_cons_self, (Nat.max_eq_left hle).symm⟩
      · have hrest : rest ≠ [] := by
          rintro rfl
          exact hle (Nat.zero_le _)
        obtain ⟨c, hc, hheight⟩ := ih hrest
        refine ⟨c, List.mem_cons_of_mem a hc, ?_⟩
        rw [hheight, Nat.max_eq_right (Nat.le_of_not_le hle)]

theorem depth_of_leaf {e : Expr α} (h : e.children = []) : e.depth = 1 := by
  rw [depth_eq_height, height_eq_heightList_children, h]
  rfl

/-- A node is one level above the deepest of its children. -/
theorem exists_depth_eq {e : Expr α} (h : e.children ≠ []) :
    ∃ c ∈ e.children, e.depth = 1 + c.depth ∧ ∀ d ∈ e.children, d.depth ≤ c.depth := by
  obtain ⟨c, hc, hheight⟩ := exists_height_eq_heightList h
  simp only [depth_eq_height]
  refine ⟨c, hc, ?_, fun d hd => ?_⟩
  · rw [height_eq_heightList_children, hheight, Nat.add_comm]
  · rw [hheight]
    exact height_le_heightList hd

/-- On every tree the walk ends, after as many turns as the tree has nodes and no earlier, and
leaves the depth of the tree behind.  The depth of a tree without subtrees is 1, and that of
another tree is 1 more than the largest depth of a subtree directly below the root. -/
theorem depth_eq_structural (e : Expr α) :
    Turns e.size (.start e) ⟨e.depth, []⟩ ∧
    (∀ n w, Turns n (.start e) w →
      n ≤ e.size ∧ (w.pending = [] → n = e.size ∧ w.deepest = e.depth)) ∧
    (e.children = [] → e.depth = 1) ∧
    (e.children ≠ [] →
      ∃ c ∈ e.children, e.depth = 1 + c.depth ∧ ∀ d ∈ e.children, d.depth ≤ c.depth) := by
  have hdepth : ∀ {n deepest}, Turns n (.start e) ⟨deepest, []⟩ → deepest = e.depth :=
    fun h => h.reach_eq.trans (DepthWalk.reach_start e)
  refine ⟨?_, fun n w h => ?_, depth_of_leaf, exists_depth_eq⟩
  · obtain ⟨deepest, hturns⟩ := exists_turns (.start e)
    obtain rfl := hdepth hturns
    exact hturns
  · have hsize : w.size + n = e.size := h.size_eq
    refine ⟨by omega, fun hempty => ?_⟩
    obtain ⟨deepest, pending⟩ := w
    obtain rfl : pending = [] := hempty
    exact ⟨(Nat.zero_add n).symm.trans hsize, hdepth h⟩

/-- The tree of `f(g(), x % pos 2)`, with operators and functions that no table has. -/
def strangeCall : Expr ℕ :=
  .call "f" [.call "g" [], .binary (.other "%") (.var "x") (.unary (.other "pos") (.const 2))]

/-- The last argument is the deepest, and the call without arguments is a leaf. -/
theorem depth_eq_structural_strangeCall :
    strangeCall.children ≠ [] ∧
      (∃ c ∈ strangeCall.children,
        strangeCall.depth = 1 + c.depth ∧ ∀ d ∈ strangeCall.children, d.depth ≤ c.depth) ∧
      (Expr.call "g" ([] : List (Expr ℕ))).depth = 1 ∧
      Turn (.start strangeCall) ⟨1, push strangeCall 1 []⟩ ∧ 1 ≤ strangeCall.size := by
  have hchildren : strangeCall.children ≠ [] := List.cons_ne_nil _ _
  have hturn : Turn (.start strangeCall) ⟨1, push strangeCall 1 []⟩ := .pop 0 strangeCall 1 []
  exact ⟨hchildren, (depth_eq_structural strangeCall).2.2.2 hchildren,
    (depth_eq_structural (.call "g" [])).2.2.1 rfl, hturn,
    ((depth_eq_structural strangeCall).2.1 1 _ (.next hturn (.done _))).1⟩

end Fluxion.Expr
