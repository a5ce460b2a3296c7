import Mathlib

/-!
# Binary hash trees

A binary tree with values at its leaves, its root under a node function, and
the lists of its leaves and of their depths.  `pairUp` joins the adjacent
elements of a list in pairs, the step with which a hash tree is built level by
level.  On `2 ^ k` trees, `k` steps leave one tree, whose leaves are theirs in
order and sit `k` levels deeper (`iterate_pairUp`), and taking roots commutes
with the steps (`map_iterate_pairUp`).

Two trees of one shape with the same root under a node function have the same
leaves when the node function is injective on the pairs of child roots the
trees feed it, `joins` (`leaves_eq_of_injOn`).  That is what makes a tree hash
bind its leaves.
-/

namespace Citicash

/-- A binary tree with values at its leaves. -/
inductive BinTree (α : Type) where
  | leaf (value : α)
  | node (left right : BinTree α)
  deriving DecidableEq, Repr

namespace BinTree

variable {α β : Type}

/-- The root under `join`: a leaf's value, or `join` of the two roots below. -/
def root (join : α → α → α) : BinTree α → α
  | leaf value => value
  | node left right => join (root join left) (root join right)

/-- The leaves, left to right. -/
def leaves : BinTree α → List α
  | leaf value => [value]
  | node left right => leaves left ++ leaves right

/-- The depth of each leaf, left to right. -/
def depths : BinTree α → List Nat
  | leaf _ => [0]
  | node left right => (depths left ++ depths right).map (· + 1)

def map (f : α → β) : BinTree α → BinTree β
  | leaf value => leaf (f value)
  | node left right => node (map f left) (map f right)

/-- The shape of a tree: the tree with its values forgotten. -/
def shape (t : BinTree α) : BinTree Unit := t.map fun _ => ()

@[simp] theorem root_leaf (join : α → α → α) (value : α) :
    (leaf value).root join = value := rfl

@[simp] theorem root_node (join : α → α → α) (left right : BinTree α) :
    (node left right).root join = join (left.root join) (right.root join) := rfl

@[simp] theorem leaves_leaf (value : α) : (leaf value).leaves = [value] := rfl

@[simp] theorem leaves_node (left right : BinTree α) :
    (node left right).leaves = left.leaves ++ right.leaves := rfl

@[simp] theorem depths_leaf (value : α) : (leaf value).depths = [0] := rfl

@[simp] theorem depths_node (left right : BinTree α) :
    (node left right).depths = (left.depths ++ right.depths).map (· + 1) := rfl

@[simp] theorem map_leaf (f : α → β) (value : α) :
    (leaf value).map f = leaf (f value) := rfl

@[simp] theorem map_node (f : α → β) (left right : BinTree α) :
    (node left right).map f = node (left.map f) (right.map f) := rfl

/-- The pairs of child roots under `join`, one for each node in pre-order:
the arguments `join` is applied to in computing the root. -/
def joins (join : α → α → α) : BinTree α → List (α × α)
  | leaf _ => []
  | node left right =>
    (left.root join, right.root join) :: (joins join left ++ joins join right)

/-- The pairs below either child are among the node's own. -/
theorem mem_joins_node {join : α → α → α} {left right : BinTree α} {p : α × α}
    (below : p ∈ left.joins join ∨ p ∈ right.joins join) :
    p ∈ (node left right).joins join :=
  List.mem_cons_of_mem _ (List.mem_append.2 below)

/-- Two trees of one shape with one root have the same leaves when `join` is
injective on the pairs of child roots the two trees feed it.  Down the trees,
each node's two pairs of child roots have one image, hence are equal. -/
theorem leaves_eq_of_injOn (join : α → α → α) :
    ∀ (t t' : BinTree α), t.shape = t'.shape → t.root join = t'.root join →
      Set.InjOn (Function.uncurry join)
          {p | p ∈ t.joins join ∨ p ∈ t'.joins join} →
        t.leaves = t'.leaves
  | leaf value, leaf value', _, same, _ => by
    simp only [root_leaf] at same
    rw [same]
  | leaf _, node _ _, shapes, _, _ => by simp [shape] at shapes
  | node _ _, leaf _, shapes, _, _ => by simp [shape] at shapes
  | node left right, node left' right', shapes, same, injective => by
    simp only [shape, map_node, node.injEq] at shapes
    have children : (left.root join, right.root join) =
        (left'.root join, right'.root join) :=
      injective (.inl (List.mem_cons_self ..))
        (.inr (List.mem_cons_self ..)) same
    simp only [Prod.mk.injEq] at children
    -- each pair of children is joined by the injective part of `join`
    have sameLeft := leaves_eq_of_injOn join left left' shapes.1 children.1
      (injective.mono fun _ mem => Or.imp (fun m => mem_joins_node (.inl m))
        (fun m => mem_joins_node (.inl m)) mem)
    have sameRight := leaves_eq_of_injOn join right right' shapes.2 children.2
      (injective.mono fun _ mem => Or.imp (fun m => mem_joins_node (.inr m))
        (fun m => mem_joins_node (.inr m)) mem)
    rw [leaves_node, leaves_node, sameLeft, sameRight]

end BinTree

/-! ## Building a tree level by level -/

section PairUp

variable {α β : Type}

/-- Adjacent elements joined in pairs; an odd last element is kept. -/
def pairUp (join : α → α → α) : List α → List α
  | [] => []
  | [a] => [a]
  | a :: b :: rest => join a b :: pairUp join rest

@[simp] theorem pairUp_nil (join : α → α → α) : pairUp join [] = [] := rfl

@[simp] theorem pairUp_cons_cons (join : α → α → α) (a b : α) (rest : List α) :
    pairUp join (a :: b :: rest) = join a b :: pairUp join rest := rfl

@[simp] theorem pairUp_singleton (join : α → α → α) (a : α) :
    pairUp join [a] = [a] := rfl

theorem length_pairUp (join : α → α → α) :
    ∀ l : List α, (pairUp join l).length = (l.length + 1) / 2
  | [] => by simp
  | [_] => by simp
  | a :: b :: rest => by
    simp only [pairUp_cons_cons, List.length_cons, length_pairUp join rest]
    omega

/-- A map that carries one join to the other carries the pairs across. -/
theorem map_pairUp {join : α → α → α} {join' : β → β → β} (f : α → β)
    (carries : ∀ a b, f (join a b) = join' (f a) (f b)) :
    ∀ l : List α, (pairUp join l).map f = pairUp join' (l.map f)
  | [] => rfl
  | [_] => rfl
  | a :: b :: rest => by
    simp only [pairUp_cons_cons, List.map_cons, carries,
      map_pairUp f carries rest]

theorem map_iterate_pairUp {join : α → α → α} {join' : β → β → β} (f : α → β)
    (carries : ∀ a b, f (join a b) = join' (f a) (f b)) (k : Nat) (l : List α) :
    ((pairUp join)^[k] l).map f = (pairUp join')^[k] (l.map f) := by
  induction k generalizing l with
  | zero => rfl
  | succ k ih =>
    rw [Function.iterate_succ_apply, Function.iterate_succ_apply, ih,
      map_pairUp f carries]

/-- On a list of values of `g` at `0, …, 2m - 1`, the pairs are the joins of
the values at `2x` and `2x + 1`. -/
theorem pairUp_map_range (join : α → α → α) (m : Nat) : ∀ g : Nat → α,
    pairUp join ((List.range (2 * m)).map g) =
      (List.range m).map fun x => join (g (2 * x)) (g (2 * x + 1)) := by
  induction m with
  | zero => intro g; rfl
  | succ m ih =>
    intro g
    -- the first two values pair up, and the rest is the same list shifted by
    -- two
    have twice : 2 * (m + 1) = 2 * m + 1 + 1 := by omega
    rw [twice, List.range_succ_eq_map, List.range_succ_eq_map,
      List.map_cons, List.map_map, List.map_cons, List.map_map,
      pairUp_cons_cons, List.range_succ_eq_map, List.map_cons,
      List.map_map]
    have shifted := ih fun x => g (x + 2)
    simp only [Function.comp_def, Nat.succ_eq_add_one] at shifted ⊢
    rw [shifted]
    congr 1

end PairUp

namespace BinTree

variable {α : Type}

@[simp] theorem flatMap_leaves_map_leaf (values : List α) :
    (values.map leaf).flatMap leaves = values := by
  induction values with
  | nil => rfl
  | cons value values ih => simp [ih]

@[simp] theorem flatMap_depths_map_leaf (values : List α) :
    (values.map leaf).flatMap depths = List.replicate values.length 0 := by
  induction values with
  | nil => rfl
  | cons value values ih => simp [ih, List.replicate_succ]

/-- Pairing trees keeps their leaves in order. -/
theorem flatMap_leaves_pairUp : ∀ ts : List (BinTree α),
    (pairUp node ts).flatMap leaves = ts.flatMap leaves
  | [] => rfl
  | [_] => rfl
  | a :: b :: rest => by
    simp only [pairUp_cons_cons, List.flatMap_cons, leaves_node,
      flatMap_leaves_pairUp rest, List.append_assoc]

/-- Pairing an even number of trees puts every leaf one level deeper. -/
theorem flatMap_depths_pairUp : ∀ ts : List (BinTree α), ts.length % 2 = 0 →
    (pairUp node ts).flatMap depths = (ts.flatMap depths).map (· + 1)
  | [], _ => rfl
  | [_], even => by simp at even
  | a :: b :: rest, even => by
    have restEven : rest.length % 2 = 0 := by
      simp only [List.length_cons] at even
      omega
    simp only [pairUp_cons_cons, List.flatMap_cons, depths_node,
      flatMap_depths_pairUp rest restEven, List.map_append, List.append_assoc]

/-- `k` pairing steps on `2 ^ k` trees leave one tree, with their leaves in
order, each `k` levels deeper. -/
theorem iterate_pairUp : ∀ (k : Nat) (ts : List (BinTree α)),
    ts.length = 2 ^ k →
    ∃ t, (pairUp node)^[k] ts = [t] ∧ t.leaves = ts.flatMap leaves ∧
      t.depths = (ts.flatMap depths).map (· + k)
  | 0, ts, single => by
    rw [Nat.pow_zero] at single
    obtain ⟨t, rfl⟩ := List.length_eq_one_iff.1 single
    refine ⟨t, rfl, ?_, ?_⟩
    · rw [List.flatMap_singleton]
    · rw [List.flatMap_singleton]
      exact (List.map_id' t.depths).symm
  | k + 1, ts, count => by
    have even : ts.length % 2 = 0 := by
      rw [count, Nat.pow_succ]
      omega
    have halved : (pairUp node ts).length = 2 ^ k := by
      rw [length_pairUp, count, Nat.pow_succ]
      omega
    obtain ⟨t, single, sameLeaves, deeper⟩ :=
      iterate_pairUp k (pairUp node ts) halved
    refine ⟨t, by rw [Function.iterate_succ_apply, single], ?_, ?_⟩
    · rw [sameLeaves, flatMap_leaves_pairUp]
    · rw [deeper, flatMap_depths_pairUp ts even, List.map_map]
      congr 1
      funext depth
      simp only [Function.comp_apply]
      omega

end BinTree

end Citicash
