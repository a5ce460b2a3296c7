import Mathlib.Data.List.Sort

/-!
# Containers with a unique key and an ordered key

A `boost::multi_index_container` with two indices: an `ordered_unique` index
on a key `uniqueKey` and an `ordered_non_unique` index on a key `orderKey`.
It is kept as the list of its elements in the order of the second index, and
the structure carries the two facts every such container has: the list is
sorted by `orderKey`, and no two elements share a `uniqueKey`.

An ordered non-unique index links a new node behind every node of an equal
key (`insertUpper`, Mathlib's `orderedInsert` under the strict comparison of
keys).  `replace` keeps a node where it is when the new key still fits between
its neighbours' keys and otherwise unlinks it and links it again as an
insertion (`replaceAt`); a `replace` or an `insert` that would repeat a unique
key is refused and leaves the container as it was.

The lemmas say what each operation does to the elements, the keys and the
size, which is all a client that keeps invariants over the container needs.
-/

namespace Citicash

variable {α κ β : Type}

/-- Sorted by a key: each element's key is at most the keys after it. -/
def KeySorted [LE β] (key : α → β) (l : List α) : Prop :=
  l.Pairwise fun a b => key a ≤ key b

/-- A container with an `ordered_unique` index on `uniqueKey` and an
`ordered_non_unique` index on `orderKey`: its elements in the order of the
second index. -/
structure MultiIndex [LinearOrder β] (uniqueKey : α → κ)
    (orderKey : α → β) where
  byOrder : List α
  sorted : KeySorted orderKey byOrder
  unique : (byOrder.map uniqueKey).Nodup

/-! ## The ordered index as a list -/

namespace MultiIndex

variable [LinearOrder β] (orderKey : α → β)

/-- Where an `ordered_non_unique` index links a new element: behind every
element of an equal key, before the first of a greater one. -/
def insertUpper (a : α) (l : List α) : List α :=
  List.orderedInsert (fun x y => orderKey x < orderKey y) a l

theorem perm_insertUpper (a : α) (l : List α) :
    (insertUpper orderKey a l).Perm (a :: l) :=
  List.perm_orderedInsert _ a l

/-- The test `replace` makes on an ordered non-unique index: the node stays
where it is when the new key is not below its predecessor's and not above its
successor's. -/
def inPlace (l : List α) (i : Nat) (a : α) : Bool :=
  (i == 0 || (l[i - 1]?.all fun b => decide (orderKey b ≤ orderKey a))) &&
    (l[i + 1]?.all fun b => decide (orderKey a ≤ orderKey b))

/-- `replace` on the ordered index: in place, or unlinked and linked again. -/
def replaceAt (l : List α) (i : Nat) (a : α) : List α :=
  if inPlace orderKey l i a then l.set i a
    else insertUpper orderKey a (l.eraseIdx i)

theorem perm_set_eraseIdx {l : List α} {i : Nat}
    (within : i < l.length) (a : α) : (l.set i a).Perm (a :: l.eraseIdx i) := by
  rw [List.set_eq_take_cons_drop a within, List.eraseIdx_eq_take_drop_succ]
  exact List.perm_middle

theorem perm_replaceAt {l : List α} {i : Nat} (within : i < l.length) (a : α) :
    (replaceAt orderKey l i a).Perm (a :: l.eraseIdx i) := by
  unfold replaceAt
  split
  · exact perm_set_eraseIdx within a
  · exact perm_insertUpper orderKey a _

/-- The keys around place `i` of a sorted list, when `a` passes the test of
`replace`: those before are at most its key, those after at least. -/
theorem le_of_inPlace {l : List α} {i : Nat} {a : α}
    (sorted : KeySorted orderKey l) (fits : inPlace orderKey l i a = true)
    (inside : i < l.length) {j : Nat} (within : j < l.length) :
    (j < i → orderKey l[j] ≤ orderKey a) ∧
      (i < j → orderKey a ≤ orderKey l[j]) := by
  have ordered := List.pairwise_iff_getElem.1 sorted
  simp only [inPlace, Bool.and_eq_true, Bool.or_eq_true, beq_iff_eq] at fits
  obtain ⟨below, above⟩ := fits
  constructor
  · intro before
    have previous : i - 1 < l.length := by omega
    have atPrevious : orderKey l[i - 1] ≤ orderKey a := by
      rcases below with first | fitsBelow
      · omega
      · simpa [List.getElem?_eq_getElem previous] using fitsBelow
    rcases Nat.lt_or_ge j (i - 1) with earlier | same
    · exact le_trans (ordered j (i - 1) within previous earlier) atPrevious
    · have : j = i - 1 := by omega
      subst this
      exact atPrevious
  · intro after
    have next : i + 1 < l.length := by omega
    have atNext : orderKey a ≤ orderKey l[i + 1] := by
      simpa [List.getElem?_eq_getElem next] using above
    rcases Nat.lt_or_ge (i + 1) j with later | same
    · exact le_trans atNext (ordered (i + 1) j next within later)
    · have : j = i + 1 := by omega
      subst this
      exact atNext

end MultiIndex

namespace KeySorted

variable [LinearOrder β] {orderKey : α → β}

theorem sublist {l l' : List α} (sorted : KeySorted orderKey l)
    (sublist : l'.Sublist l) : KeySorted orderKey l' :=
  List.Pairwise.sublist sublist sorted

theorem insertUpper {l : List α} (sorted : KeySorted orderKey l) (a : α) :
    KeySorted orderKey (MultiIndex.insertUpper orderKey a l) := by
  induction l with
  | nil => exact List.pairwise_singleton _ a
  | cons b l ih =>
    obtain ⟨bFirst, rest⟩ := List.pairwise_cons.1 sorted
    unfold MultiIndex.insertUpper at ih ⊢
    rw [List.orderedInsert_cons]
    split
    · -- `a` goes first: its key is below `b`'s, and so below every later key
      rename_i before
      refine List.Pairwise.cons (fun x mem => ?_) sorted
      rcases List.mem_cons.1 mem with rfl | later
      · exact le_of_lt before
      · exact le_trans (le_of_lt before) (bFirst x later)
    · -- `b` stays first: `a`'s key is not below it
      rename_i notBefore
      refine List.Pairwise.cons (fun x mem => ?_) (ih rest)
      rcases (List.mem_orderedInsert _).1 mem with rfl | later
      · exact not_lt.1 notBefore
      · exact bFirst x later

theorem set_of_inPlace {l : List α} {i : Nat} {a : α}
    (sorted : KeySorted orderKey l)
    (fits : MultiIndex.inPlace orderKey l i a = true) :
    KeySorted orderKey (l.set i a) := by
  have ordered := List.pairwise_iff_getElem.1 sorted
  refine List.pairwise_iff_getElem.2 fun j j' within within' earlier => ?_
  rw [List.length_set] at within within'
  rw [List.getElem_set, List.getElem_set]
  -- the new element against an old one, or two old ones
  by_cases first : i = j
  · by_cases second : i = j'
    · omega
    · rw [if_pos first, if_neg second]
      exact (MultiIndex.le_of_inPlace orderKey sorted fits
        (first ▸ within) within').2 (by omega)
  · by_cases second : i = j'
    · rw [if_neg first, if_pos second]
      exact (MultiIndex.le_of_inPlace orderKey sorted fits
        (second ▸ within') within).1 (by omega)
    · rw [if_neg first, if_neg second]
      exact ordered j j' within within' earlier

theorem replaceAt {l : List α} (sorted : KeySorted orderKey l)
    (i : Nat) (a : α) :
    KeySorted orderKey (MultiIndex.replaceAt orderKey l i a) := by
  unfold MultiIndex.replaceAt
  split
  · exact sorted.set_of_inPlace ‹_›
  · exact (sorted.sublist (List.eraseIdx_sublist l i)).insertUpper a

end KeySorted

namespace MultiIndex

/-! ## The container -/

section Container

variable [LinearOrder β] {uniqueKey : α → κ} {orderKey : α → β}

/-- The keys of the unique index, in the order of the other. -/
def keys (c : MultiIndex uniqueKey orderKey) : List κ := c.byOrder.map uniqueKey

def size (c : MultiIndex uniqueKey orderKey) : Nat := c.byOrder.length

def empty : MultiIndex uniqueKey orderKey :=
  ⟨[], List.Pairwise.nil, List.nodup_nil⟩

theorem nodup_map_of_perm {l l' : List α} {a : α} (perm : l'.Perm (a :: l))
    (fresh : uniqueKey a ∉ l.map uniqueKey) (unique : (l.map uniqueKey).Nodup) :
    (l'.map uniqueKey).Nodup :=
  (perm.map uniqueKey).nodup_iff.2 (List.nodup_cons.2 ⟨fresh, unique⟩)

/-- `insert(a)`: refused when the unique key of `a` is taken. -/
def insert [DecidableEq κ] (c : MultiIndex uniqueKey orderKey) (a : α) :
    MultiIndex uniqueKey orderKey :=
  if taken : uniqueKey a ∈ c.keys then c
  else
    ⟨insertUpper orderKey a c.byOrder, c.sorted.insertUpper a,
      nodup_map_of_perm (perm_insertUpper orderKey a c.byOrder) taken c.unique⟩

/-- `replace(it, a)` at place `i` of the ordered index: refused when the
unique key of `a` is taken by another element. -/
def replace [DecidableEq κ] (c : MultiIndex uniqueKey orderKey)
    (i : Nat) (a : α) : MultiIndex uniqueKey orderKey :=
  if fits : i < c.byOrder.length ∧
    uniqueKey a ∉ (c.byOrder.eraseIdx i).map uniqueKey then
    ⟨replaceAt orderKey c.byOrder i a, c.sorted.replaceAt i a,
      nodup_map_of_perm (perm_replaceAt orderKey fits.1 a) fits.2
        (c.unique.sublist ((List.eraseIdx_sublist _ i).map uniqueKey))⟩
  else c

/-- `erase(it)` at place `i` of the ordered index. -/
def erase (c : MultiIndex uniqueKey orderKey) (i : Nat) :
    MultiIndex uniqueKey orderKey :=
  ⟨c.byOrder.eraseIdx i, c.sorted.sublist (List.eraseIdx_sublist _ i),
    c.unique.sublist ((List.eraseIdx_sublist _ i).map uniqueKey)⟩

/-- `erase(begin())` of the ordered index: the element of the least key. -/
def eraseFirst (c : MultiIndex uniqueKey orderKey) :
    MultiIndex uniqueKey orderKey :=
  ⟨c.byOrder.tail, c.sorted.sublist (List.tail_sublist _),
    c.unique.sublist ((List.tail_sublist _).map uniqueKey)⟩

/-- `find(k)` on the unique index: the place in order of the element of key
`k`. -/
def find [DecidableEq κ] (c : MultiIndex uniqueKey orderKey)
    (k : κ) : Option Nat :=
  c.byOrder.findIdx? fun a => uniqueKey a = k

@[simp] theorem byOrder_empty :
    (empty : MultiIndex uniqueKey orderKey).byOrder = [] := rfl

@[simp] theorem byOrder_erase (c : MultiIndex uniqueKey orderKey) (i : Nat) :
    (c.erase i).byOrder = c.byOrder.eraseIdx i := rfl

@[simp] theorem byOrder_eraseFirst (c : MultiIndex uniqueKey orderKey) :
    c.eraseFirst.byOrder = c.byOrder.tail := rfl

theorem mem_keys {c : MultiIndex uniqueKey orderKey} {k : κ} :
    k ∈ c.keys ↔ ∃ a ∈ c.byOrder, uniqueKey a = k :=
  List.mem_map

theorem nodup (c : MultiIndex uniqueKey orderKey) : c.byOrder.Nodup :=
  c.unique.of_map uniqueKey

section Find

variable [DecidableEq κ]

theorem find_eq_none {c : MultiIndex uniqueKey orderKey} {k : κ} :
    c.find k = none ↔ k ∉ c.keys := by
  rw [find, List.findIdx?_eq_none_iff, mem_keys]
  simp

/-- The element `find` points at carries the key. -/
theorem find_eq_some {c : MultiIndex uniqueKey orderKey} {k : κ} {i : Nat}
    (found : c.find k = some i) : ∃ within : i < c.byOrder.length,
      uniqueKey c.byOrder[i] = k := by
  obtain ⟨within, holds, -⟩ := List.findIdx?_eq_some_iff_getElem.1 found
  exact ⟨within, of_decide_eq_true holds⟩

theorem mem_insert {c : MultiIndex uniqueKey orderKey} {a x : α}
    (mem : x ∈ (c.insert a).byOrder) : x = a ∨ x ∈ c.byOrder := by
  unfold insert at mem
  split at mem
  · exact Or.inr mem
  · exact List.mem_cons.1
      ((perm_insertUpper orderKey a c.byOrder).mem_iff.1 mem)

theorem mem_replace {c : MultiIndex uniqueKey orderKey} {i : Nat} {a x : α}
    (mem : x ∈ (c.replace i a).byOrder) : x = a ∨ x ∈ c.byOrder := by
  unfold replace at mem
  split at mem
  · rename_i fits
    rcases List.mem_cons.1
      ((perm_replaceAt orderKey fits.1 a).mem_iff.1 mem) with same | old
    · exact Or.inl same
    · exact Or.inr ((List.eraseIdx_sublist _ i).subset old)
  · exact Or.inr mem

theorem size_replace (c : MultiIndex uniqueKey orderKey) (i : Nat) (a : α) :
    (c.replace i a).size = c.size := by
  unfold replace size
  split
  · rename_i fits
    rw [(perm_replaceAt orderKey fits.1 a).length_eq, List.length_cons,
      List.length_eraseIdx, if_pos fits.1]
    omega
  · rfl

/-- The element `find` pointed at is gone after `erase`; the key was unique. -/
theorem not_mem_keys_erase {c : MultiIndex uniqueKey orderKey} {k : κ} {i : Nat}
    (found : c.find k = some i) : k ∉ (c.erase i).keys := by
  obtain ⟨within, atFound⟩ := find_eq_some found
  intro mem
  obtain ⟨x, member, rfl⟩ := mem_keys.1 mem
  obtain ⟨j, withinOther, other, rfl⟩ := List.mem_eraseIdx_iff_getElem.1 member
  -- two places of the ordered index would carry one unique key
  have withinKeys : i < (c.byOrder.map uniqueKey).length := by
    simpa using within
  have withinOtherKeys : j < (c.byOrder.map uniqueKey).length := by
    simpa using withinOther
  have sameKey : (c.byOrder.map uniqueKey)[j] =
      (c.byOrder.map uniqueKey)[i] := by
    rw [List.getElem_map, List.getElem_map, atFound]
  exact other ((c.unique.getElem_inj_iff).1 sameKey)

end Find

theorem mem_of_mem_erase {c : MultiIndex uniqueKey orderKey} {i : Nat} {x : α}
    (mem : x ∈ (c.erase i).byOrder) : x ∈ c.byOrder :=
  (List.eraseIdx_sublist _ i).subset mem

theorem size_erase_le (c : MultiIndex uniqueKey orderKey) (i : Nat) :
    (c.erase i).size ≤ c.size :=
  (List.eraseIdx_sublist _ i).length_le

theorem size_eraseFirst (c : MultiIndex uniqueKey orderKey) :
    c.eraseFirst.size = c.size - 1 :=
  List.length_tail

end Container

end MultiIndex

end Citicash
