import Citicash.Basic.Types
import Citicash.Lib.MerkleTree

/-!
# The tree hash

`tree_hash` of `crypto/tree-hash.c`, the root of a binary hash tree over a
list of hashes with `cn_fast_hash` of the two 32-byte child roots at each
node.  The source computes it in a buffer `ints` of `cnt` hashes, `cnt` the
largest power of two below the count (`tree_hash_cnt`): the first
`2 * cnt - count` hashes are copied, the others hashed in pairs, and the
buffer is then halved in place until two hashes are left.

The buffer loops compute the root of the tree `treeHashTree` builds level by
level with `pairUp` (`treeHash_eq_map_root`), whose leaves are the hashes in
order, the first `2 * cnt - count` of them one level above the others
(`treeHashTree_spec`).  Since the tree's shape depends only on the count, two
lists of one length with one tree hash are equal when `cn_fast_hash` is
injective on the 64-byte inputs the two tree hashes give it
(`treeHash_binds_hashes`).
-/

namespace Citicash
namespace Crypto

open Cryptonote

/-! ## The source -/

/-- The loop of `tree_hash_cnt`: `tmp` halved until it is zero, `jj` counting
the rounds from 1; `fuel` bounds the rounds. -/
def treeHashCntLoop : Nat → Nat → Nat → Nat
  | 0, _, jj => jj
  | fuel + 1, tmp,
      jj => if tmp ≠ 0 then treeHashCntLoop fuel (tmp / 2) (jj + 1) else jj

/-- `tree_hash_cnt(count)`, for `count ≥ 3`: `1 << (jj - 2)`, `jj - 1` being the
number of bits of `count - 1`.  The value itself bounds the rounds of the
loop. -/
def treeHashCnt (count : Nat) : Nat :=
  1 <<< (treeHashCntLoop count (count - 1) 1 - 2)

section Source

variable (cnFastHash : List UInt8 → Hash)

/-- `cn_fast_hash` of two hashes lying side by side, 64 bytes. -/
def hashPair (a b : Hash) : Hash :=
  cnFastHash (a.bytes.toList ++ b.bytes.toList)

/-- The first loop of `tree_hash`: for `j` from `2 * cnt - count` below `cnt`,
`ints[j]` gets the hash of `hashes[i]` and `hashes[i + 1]`, `i` going up by
two.  The buffer is a function of the index; `fuel` bounds the rounds. -/
def pairLeavesLoop (hashes : List Hash) (cnt : Nat) :
    Nat → Nat → Nat → (Nat → Hash) → Nat → Hash
  | 0, _, _, ints => ints
  | fuel + 1, i, j, ints =>
    if j < cnt then
      pairLeavesLoop hashes cnt fuel (i + 2) (j + 1)
        (Function.update ints j
          (hashPair cnFastHash (hashes.getD i nullHash)
            (hashes.getD (i + 1) nullHash)))
    else ints

/-- The inner loop of the `while`: `ints[j]` gets the hash of `ints[i]` and
`ints[i + 1]`, in place. -/
def halveLoop (cnt : Nat) : Nat → Nat → Nat → (Nat → Hash) → Nat → Hash
  | 0, _, _, ints => ints
  | fuel + 1, i, j, ints =>
    if j < cnt then
      halveLoop cnt fuel (i + 2) (j + 1)
        (Function.update ints j (hashPair cnFastHash (ints i) (ints (i + 1))))
    else ints

/-- `while (cnt > 2)`: `cnt` halved, then the inner loop; `fuel` bounds the
rounds. -/
def reduceLoop : Nat → Nat → (Nat → Hash) → Nat → Hash
  | 0, _, ints => ints
  | fuel + 1, cnt, ints =>
    if cnt > 2 then
      let cnt := cnt >>> 1
      reduceLoop fuel cnt (halveLoop cnFastHash cnt cnt 0 0 ints)
    else ints

/-- `tree_hash(hashes, count, root_hash)`, `none` where `assert(count > 0)`
fails.  `ints` starts zeroed by `memset`, with the hashes that are not paired
copied in by `memcpy`. -/
def treeHash (hashes : List Hash) : Option Hash :=
  match hashes with
  | [] => none
  | [hash] => some hash
  | [first, second] => some (hashPair cnFastHash first second)
  | _ =>
    let count := hashes.length
    let cnt := treeHashCnt count
    let ints : Nat → Hash :=
      fun i => if i < 2 * cnt - count then hashes.getD i nullHash else nullHash
    let ints :=
      pairLeavesLoop cnFastHash hashes cnt cnt (2 * cnt - count)
        (2 * cnt - count) ints
    let ints := reduceLoop cnFastHash cnt cnt ints
    some (hashPair cnFastHash (ints 0) (ints 1))

end Source

/-! ## The tree -/

/-- The tree whose root `tree_hash` computes, built level by level: the first
`2 * cnt - count` values are leaves of the first level, the others are paired
into it, and its `cnt` trees are paired up until one is left. -/
def treeHashTree {α : Type} (hashes : List α) : Option (BinTree α) :=
  match hashes with
  | [] => none
  | [hash] => some (.leaf hash)
  | [first, second] => some (.node (.leaf first) (.leaf second))
  | _ =>
    let count := hashes.length
    let cnt := treeHashCnt count
    let level := (hashes.take (2 * cnt - count)).map .leaf ++
      pairUp .node ((hashes.drop (2 * cnt - count)).map .leaf)
    ((pairUp .node)^[Nat.log 2 cnt] level).head?

/-- The depth of each leaf of that tree: with `cnt = 2 ^ k` the largest power
of two below the count, the first `2 * cnt - count` at depth `k`, the others
at depth `k + 1`. -/
def treeHashDepths (count : Nat) : List Nat :=
  if count = 1 then [0]
  else
    let k := Nat.log 2 (count - 1)
    List.replicate (2 * 2 ^ k - count) k ++
      List.replicate (2 * (count - 2 ^ k)) (k + 1)

/-! ## `tree_hash_cnt` -/

theorem treeHashCntLoop_eq : ∀ fuel tmp jj, tmp ≤ fuel →
    treeHashCntLoop fuel tmp jj = if tmp = 0 then jj else jj + Nat.log 2 tmp + 1
  | 0, tmp, jj, small => by
    obtain rfl : tmp = 0 := by omega
    rfl
  | fuel + 1, tmp, jj, small => by
    rw [treeHashCntLoop]
    by_cases zero : tmp = 0
    · simp [zero]
    · rw [if_pos zero, treeHashCntLoop_eq fuel (tmp / 2) (jj + 1)
        (by omega), if_neg zero]
      -- one round fewer than `tmp` has bits
      by_cases one : tmp / 2 = 0
      · obtain rfl : tmp = 1 := by omega
        simp
      · have positive : 0 < Nat.log 2 tmp :=
          Nat.log_pos (by norm_num) (by omega)
        rw [if_neg one, Nat.log_div_base]
        omega

theorem treeHashCnt_eq {count : Nat} (atLeastTwo : 2 ≤ count) :
    treeHashCnt count = 2 ^ Nat.log 2 (count - 1) := by
  rw [treeHashCnt, treeHashCntLoop_eq count (count - 1) 1 (by omega),
    if_neg (by omega), Nat.one_shiftLeft]
  congr 1
  omega

/-- `cnt` is the largest power of two below the count, so the source's asserts
`cnt >= count / 2` and `cnt <= count` hold. -/
theorem treeHashCnt_bounds {count : Nat} (atLeastTwo : 2 ≤ count) :
    treeHashCnt count < count ∧ count ≤ 2 * treeHashCnt count := by
  rw [treeHashCnt_eq atLeastTwo]
  have below := Nat.pow_log_le_self 2 (show count - 1 ≠ 0 by omega)
  have above := Nat.lt_pow_succ_log_self (show 1 < 2 by norm_num) (count - 1)
  rw [Nat.pow_succ] at above
  omega

/-- From three hashes on, `cnt` is at least two: `2 ^ (k + 1)`, with
`k + 1` the logarithm of `count - 1`. -/
theorem treeHashCnt_eq_two_pow {count : Nat} (atLeastThree : 3 ≤ count) :
    ∃ k, treeHashCnt count = 2 ^ (k + 1) ∧ Nat.log 2 (count - 1) = k + 1 := by
  have positive : 0 < Nat.log 2 (count - 1) :=
    Nat.log_pos (by norm_num) (by omega)
  refine ⟨Nat.log 2 (count - 1) - 1, ?_, by omega⟩
  rw [treeHashCnt_eq (by omega)]
  congr 1
  omega

/-! ## The buffer loops -/

section Loops

variable (cnFastHash : List UInt8 → Hash)

theorem map_range_getD {α : Type} (l : List α) (d : α) {start n : Nat}
    (within : start + n ≤ l.length) :
    (List.range n).map (fun i => l.getD (start + i) d) =
      (l.drop start).take n := by
  apply List.ext_getElem
  · simp only [List.length_map, List.length_range, List.length_take,
      List.length_drop]
    omega
  · intro i inRange _
    simp only [List.length_map, List.length_range] at inRange
    simp only [List.getElem_map, List.getElem_range, List.getElem_take,
      List.getElem_drop,
      List.getD_eq_getElem?_getD,
        List.getElem?_eq_getElem (show start + i < l.length by omega),
      Option.getD_some]

/-- The first loop from `j` on: the cells from `j` below `cnt` get the pairs
of hashes from `i` on, the others keep what they held. -/
theorem pairLeavesLoop_apply (hashes : List Hash) (cnt : Nat) :
    ∀ fuel i j (ints : Nat → Hash), cnt - j ≤ fuel → ∀ x,
      pairLeavesLoop cnFastHash hashes cnt fuel i j ints x =
        if j ≤ x ∧ x < cnt then
          hashPair cnFastHash (hashes.getD (i + 2 * (x - j)) nullHash)
            (hashes.getD (i + 2 * (x - j) + 1) nullHash)
        else ints x
  | 0, i, j, ints, done, x => by
    rw [if_neg (by omega)]
    rfl
  | fuel + 1, i, j, ints, enough, x => by
    rw [pairLeavesLoop]
    split
    · rename_i inside
      rw [pairLeavesLoop_apply hashes cnt fuel (i + 2) (j + 1) _ (by omega)]
      by_cases later : j + 1 ≤ x ∧ x < cnt
      · rw [if_pos later, if_pos ⟨by omega, later.2⟩,
          show i + 2 + 2 * (x - (j + 1)) =
          i + 2 * (x - j) by omega]
      · rw [if_neg later]
        by_cases atJ : x = j
        · subst atJ
          rw [if_pos ⟨le_rfl, inside⟩, Function.update_self]
          simp only [Nat.sub_self, Nat.mul_zero, Nat.add_zero]
        · rw [Function.update_of_ne atJ, if_neg (by omega)]
    · rw [if_neg (by omega)]

/-- The inner loop from `j` on: the cells from `j` below `cnt` get the hash of
the cells at twice their index and the one after.  Those cells lie past every
cell written so far, so the loop reads them as they were. -/
theorem halveLoop_apply (cnt : Nat) :
    ∀ fuel j (ints : Nat → Hash), cnt - j ≤ fuel → ∀ x,
      halveLoop cnFastHash cnt fuel (2 * j) j ints x =
        if j ≤ x ∧ x < cnt
          then hashPair cnFastHash (ints (2 * x)) (ints (2 * x + 1)) else ints x
  | 0, j, ints, done, x => by
    rw [if_neg (by omega)]
    rfl
  | fuel + 1, j, ints, enough, x => by
    rw [halveLoop]
    split
    · rename_i inside
      rw [show 2 * j + 2 = 2 * (j + 1) by omega,
        halveLoop_apply cnt fuel (j + 1) _ (by omega)]
      by_cases later : j + 1 ≤ x ∧ x < cnt
      · rw [if_pos later, if_pos ⟨by omega, later.2⟩,
          Function.update_of_ne (by omega), Function.update_of_ne (by omega)]
      · rw [if_neg later]
        by_cases atJ : x = j
        · subst atJ
          rw [if_pos ⟨le_rfl, inside⟩, Function.update_self]
        · rw [Function.update_of_ne atJ, if_neg (by omega)]
    · rw [if_neg (by omega)]

/-- One round of the `while` pairs up the level in the first cells. -/
theorem map_range_halveLoop (cnt : Nat) (ints : Nat → Hash) :
    (List.range cnt).map (halveLoop cnFastHash cnt cnt 0 0 ints) =
      pairUp (hashPair cnFastHash) ((List.range (2 * cnt)).map ints) := by
  rw [pairUp_map_range]
  apply List.map_congr_left
  intro x inRange
  rw [List.mem_range] at inRange
  rw [show (0 : Nat) = 2 * 0 from rfl,
    halveLoop_apply cnFastHash cnt cnt 0 ints (by omega),
    if_pos ⟨Nat.zero_le x, inRange⟩]

/-- The `while` loop on `2 ^ (k + 1)` cells and the final hash of the two
cells it leaves pair the level up `k + 1` times. -/
theorem reduceLoop_spec : ∀ k fuel (ints : Nat → Hash), k ≤ fuel →
    [hashPair cnFastHash (reduceLoop cnFastHash fuel (2 ^ (k + 1)) ints 0)
        (reduceLoop cnFastHash fuel (2 ^ (k + 1)) ints 1)] =
      (pairUp (hashPair cnFastHash))^[k + 1]
    ((List.range (2 ^ (k + 1))).map ints)
  | 0, fuel, ints, _ => by
    have noRound : reduceLoop cnFastHash fuel 2 ints = ints := by
      cases fuel <;> rfl
    rw [Nat.zero_add, Nat.pow_one, noRound]
    rfl
  | k + 1, fuel, ints, enough => by
    obtain ⟨fuel, rfl⟩ : ∃ rounds, fuel = rounds + 1 := ⟨fuel - 1, by omega⟩
    have halved : 2 ^ (k + 1 + 1) >>> 1 = 2 ^ (k + 1) := by
      rw [Nat.shiftRight_one, Nat.pow_succ]
      omega
    have several : 2 ^ (k + 1 + 1) > 2 := by
      have := Nat.one_lt_two_pow (show k + 1 ≠ 0 by omega)
      rw [Nat.pow_succ]
      omega
    rw [reduceLoop, if_pos several]
    rw [halved, reduceLoop_spec k fuel _ (by omega), map_range_halveLoop,
      show 2 * 2 ^ (k + 1) = 2 ^ (k + 1 + 1) by rw [Nat.pow_succ]; omega,
      ← Function.iterate_succ_apply]

/-- The first loop leaves in the first `cnt` cells the first level: the
hashes that are not paired, then the pairs of the others. -/
theorem map_range_pairLeavesLoop (hashes : List Hash) {cnt : Nat}
    (bounds : cnt < hashes.length ∧ hashes.length ≤ 2 * cnt) :
    (List.range cnt).map
      (pairLeavesLoop cnFastHash hashes cnt cnt (2 * cnt - hashes.length)
        (2 * cnt - hashes.length) fun i => if i < 2 * cnt -
          hashes.length then hashes.getD i nullHash else nullHash) =
      hashes.take (2 * cnt - hashes.length) ++
        pairUp (hashPair cnFastHash)
    (hashes.drop (2 * cnt - hashes.length)) := by
  set singles := 2 * cnt - hashes.length with singlesDef
  have split : cnt = singles + (cnt - singles) := by omega
  have paired : (hashes.drop singles).length = 2 * (cnt - singles) := by
    rw [List.length_drop]
    omega
  -- the cells below `singles` were copied, the others hashed from pairs
  have copied :
      (List.range singles).map
        (pairLeavesLoop cnFastHash hashes cnt cnt singles singles
      fun i => if i < singles then hashes.getD i nullHash else nullHash) =
      hashes.take singles := by
    have whole := @map_range_getD _ hashes nullHash 0 singles (by omega)
    rw [List.drop_zero] at whole
    rw [← whole]
    apply List.map_congr_left
    intro x inRange
    rw [List.mem_range] at inRange
    rw [pairLeavesLoop_apply cnFastHash hashes cnt cnt singles
      singles _ (by omega), if_neg (by omega), if_pos inRange, Nat.zero_add]
  have hashed : ((List.range (cnt - singles)).map (singles + ·)).map
      (pairLeavesLoop cnFastHash hashes cnt cnt singles singles
        fun i => if i < singles then hashes.getD i nullHash else nullHash) =
      pairUp (hashPair cnFastHash) (hashes.drop singles) := by
    have whole :=
      @map_range_getD _ hashes nullHash singles (2 * (cnt - singles))
      (by omega)
    rw [← paired, List.take_length] at whole
    rw [← whole, paired, pairUp_map_range, List.map_map]
    apply List.map_congr_left
    intro y inRange
    rw [List.mem_range] at inRange
    simp only [Function.comp_apply]
    rw [pairLeavesLoop_apply cnFastHash hashes cnt cnt singles
      singles _ (by omega),
      if_pos ⟨by omega, by omega⟩, show singles + y - singles = y by omega]
    rfl
  rw [show List.range cnt = List.range singles ++
    (List.range (cnt - singles)).map (singles + ·) by
    rw [← List.range_add, ← split], List.map_append, copied, hashed]

end Loops

/-! ## The refinement -/

section Refinement

variable (cnFastHash : List UInt8 → Hash)

/-- The levels of the tree, taken to their roots, are the levels of hashes. -/
theorem map_root_firstLevel (hashes : List Hash) (singles : Nat) :
    ((hashes.take singles).map BinTree.leaf ++
        pairUp BinTree.node ((hashes.drop singles).map BinTree.leaf)).map
        (BinTree.root (hashPair cnFastHash)) =
      hashes.take singles ++ pairUp (hashPair cnFastHash)
    (hashes.drop singles) := by
  rw [List.map_append, map_pairUp _ (fun _ _ => rfl),
    List.map_map, List.map_map]
  simp only [Function.comp_def, BinTree.root_leaf, List.map_id']

/-- The buffer loops of `tree_hash` compute the root of `treeHashTree`. -/
theorem treeHash_eq_map_root (hashes : List Hash) :
    treeHash cnFastHash hashes = (treeHashTree hashes).map
      (·.root (hashPair cnFastHash)) := by
  match hashes with
  | [] => rfl
  | [_] => rfl
  | [_, _] => rfl
  | first :: second :: third :: rest =>
    set hashes := first :: second :: third :: rest with hashesDef
    have atLeastThree : 3 ≤ hashes.length := by simp [hashesDef]
    obtain ⟨fewer, enough⟩ :=
      treeHashCnt_bounds (show 2 ≤ hashes.length by omega)
    obtain ⟨k, power, -⟩ := treeHashCnt_eq_two_pow atLeastThree
    have roundsFit : k ≤ treeHashCnt hashes.length := by
      rw [power]
      exact le_of_lt
        (lt_of_lt_of_le (Nat.lt_two_pow_self)
          (Nat.pow_le_pow_right (by norm_num)
        (by omega)))
    have level := map_range_pairLeavesLoop cnFastHash hashes ⟨fewer, enough⟩
    have reduced := reduceLoop_spec cnFastHash k (treeHashCnt hashes.length)
      (pairLeavesLoop cnFastHash hashes (treeHashCnt hashes.length)
        (treeHashCnt hashes.length)
          (2 * treeHashCnt hashes.length - hashes.length)
        (2 * treeHashCnt hashes.length - hashes.length)
        fun i => if i < 2 * treeHashCnt hashes.length - hashes.length then
          hashes.getD i nullHash else nullHash) roundsFit
    rw [← power, level] at reduced
    -- the tree's first level has `cnt` trees, which pair up into one
    set singles := 2 * treeHashCnt hashes.length - hashes.length with singlesDef
    set treeLevel := (hashes.take singles).map BinTree.leaf ++
      pairUp BinTree.node
        ((hashes.drop singles).map BinTree.leaf) with treeLevelDef
    have levelLength : treeLevel.length = 2 ^ (k + 1) := by
      rw [treeLevelDef, List.length_append, List.length_map, length_pairUp,
        List.length_map, List.length_take, List.length_drop, ← power]
      omega
    obtain ⟨t, single, -, -⟩ :=
      BinTree.iterate_pairUp (k + 1) treeLevel levelLength
    have rootOfTree :=
      @map_iterate_pairUp _ _ BinTree.node (hashPair cnFastHash)
      (BinTree.root (hashPair cnFastHash)) (fun _ _ => rfl) (k + 1) treeLevel
    rw [single, treeLevelDef, map_root_firstLevel, ← reduced] at rootOfTree
    simp only [List.map_cons, List.map_nil, List.cons.injEq,
      and_true] at rootOfTree
    show some _ =
        Option.map _
          ((pairUp BinTree.node)^[Nat.log 2 (treeHashCnt hashes.length)]
      treeLevel).head?
    have logCnt : Nat.log 2 (treeHashCnt hashes.length) = k + 1 := by
      rw [power, Nat.log_pow (by norm_num)]
    rw [logCnt, single, List.head?_cons, Option.map_some, rootOfTree]


/-- The tree's leaves are the hashes in order, the first `2 * cnt - count`
one level above the others. -/
theorem treeHashTree_spec {α : Type} {hashes : List α}
    (nonempty : hashes ≠ []) :
    ∃ t, treeHashTree hashes = some t ∧ t.leaves = hashes ∧
      t.depths = treeHashDepths hashes.length := by
  match hashes, nonempty with
  | [hash], _ => exact ⟨.leaf hash, rfl, rfl, by simp [treeHashDepths]⟩
  | [first, second], _ => exact ⟨_, rfl, rfl, by simp [treeHashDepths]⟩
  | first :: second :: third :: rest, _ =>
    set hashes := first :: second :: third :: rest with hashesDef
    have atLeastThree : 3 ≤ hashes.length := by simp [hashesDef]
    obtain ⟨fewer, enough⟩ :=
      treeHashCnt_bounds (show 2 ≤ hashes.length by omega)
    obtain ⟨k, power, logCount⟩ := treeHashCnt_eq_two_pow atLeastThree
    set singles := 2 * treeHashCnt hashes.length - hashes.length with singlesDef
    set treeLevel := (hashes.take singles).map BinTree.leaf ++
      pairUp BinTree.node
        ((hashes.drop singles).map BinTree.leaf) with treeLevelDef
    have paired : (hashes.drop singles).length % 2 = 0 := by
      rw [List.length_drop]
      omega
    have levelLength : treeLevel.length = 2 ^ (k + 1) := by
      rw [treeLevelDef, List.length_append, List.length_map, length_pairUp,
        List.length_map, List.length_take, List.length_drop, ← power]
      omega
    obtain ⟨t, single, leavesOfT, depthsOfT⟩ :=
      BinTree.iterate_pairUp (k + 1) treeLevel levelLength
    have logCnt : Nat.log 2 (treeHashCnt hashes.length) = k + 1 := by
      rw [power, Nat.log_pow (by norm_num)]
    refine ⟨t, ?_, ?_, ?_⟩
    · show ((pairUp BinTree.node)^[Nat.log 2 (treeHashCnt hashes.length)]
        treeLevel).head? = _
      rw [logCnt, single]
      rfl
    · rw [leavesOfT, treeLevelDef, List.flatMap_append,
        BinTree.flatMap_leaves_pairUp, BinTree.flatMap_leaves_map_leaf,
        BinTree.flatMap_leaves_map_leaf, List.take_append_drop]
    · -- leaves copied to the first level sit `k + 1` deep, the paired ones
      -- one more
      rw [depthsOfT, treeLevelDef, List.flatMap_append,
        BinTree.flatMap_depths_pairUp _ (by rwa [List.length_map]),
        BinTree.flatMap_depths_map_leaf,
          BinTree.flatMap_depths_map_leaf, treeHashDepths,
        if_neg (by omega), logCount]
      simp only [List.map_append, List.map_replicate, List.length_take,
        List.length_drop, ← power]
      congr 2 <;> omega

/-- Built on other values, the tree is the same tree with the values
changed: its shape depends only on the count. -/
theorem treeHashTree_map {α β : Type} (f : α → β) (hashes : List α) :
    treeHashTree (hashes.map f) = (treeHashTree hashes).map
      (BinTree.map f) := by
  match hashes with
  | [] => rfl
  | [_] => rfl
  | [_, _] => rfl
  | first :: second :: third :: rest =>
    set hashes := first :: second :: third :: rest
    have carries : ∀ a b : BinTree α, (BinTree.node a b).map f =
        BinTree.node (a.map f) (b.map f) :=
      fun _ _ => rfl
    show ((pairUp BinTree.node)^[Nat.log 2 (treeHashCnt (hashes.map f).length)]
      (((hashes.map f).take
        (2 * treeHashCnt (hashes.map f).length - (hashes.map f).length)).map
          BinTree.leaf ++
        pairUp BinTree.node (((hashes.map f).drop
          (2 * treeHashCnt (hashes.map f).length - (hashes.map f).length)).map
            BinTree.leaf))).head? =
      Option.map (BinTree.map f)
        ((pairUp BinTree.node)^[Nat.log 2 (treeHashCnt hashes.length)]
          ((hashes.take
            (2 * treeHashCnt hashes.length - hashes.length)).map BinTree.leaf ++
              pairUp BinTree.node ((hashes.drop
            (2 * treeHashCnt hashes.length - hashes.length)).map
              BinTree.leaf))).head?
    rw [← List.head?_map, map_iterate_pairUp _ carries, List.map_append,
      map_pairUp _ carries, List.length_map, ← List.map_take, ← List.map_drop,
      List.map_map, List.map_map, List.map_map,
      List.map_map]
    rfl

theorem treeHash_isSome {hashes : List Hash} (nonempty : hashes ≠ []) :
    (treeHash cnFastHash hashes).isSome := by
  obtain ⟨t, built, -, -⟩ := treeHashTree_spec nonempty
  rw [treeHash_eq_map_root, built]
  rfl

/-- The 64-byte inputs of `cn_fast_hash` in `tree_hash`: the two child roots
side by side at each node of the tree. -/
def treeHashInputs (hashes : List Hash) : List (List UInt8) :=
  match treeHashTree hashes with
  | some t => (t.joins (hashPair cnFastHash)).map fun pair =>
      pair.1.bytes.toList ++ pair.2.bytes.toList
  | none => []

/-- `cn_fast_hash` injective on the pairs' bytes side by side makes
`hashPair` injective on the pairs: hashes are 32 bytes, so a 64-byte input
splits one way only. -/
theorem hashPair_injOn {pairs : Set (Hash × Hash)}
    (injective : Set.InjOn cnFastHash
      ((fun pair : Hash × Hash => pair.1.bytes.toList ++
        pair.2.bytes.toList) '' pairs)) :
    Set.InjOn (Function.uncurry (hashPair cnFastHash)) pairs := by
  rintro ⟨a, b⟩ mem ⟨c, d⟩ mem' same
  have equal : a.bytes.toList ++ b.bytes.toList = c.bytes.toList ++
      d.bytes.toList :=
    injective (Set.mem_image_of_mem _ mem) (Set.mem_image_of_mem _ mem') same
  obtain ⟨sameFirst, rest⟩ := Key.append_inj equal
  rw [sameFirst, Key.eq_of_bytes_toList rest]

/-- Two lists of one length with one tree hash are equal when `cn_fast_hash`
is injective on the inputs it is applied to in the two tree hashes. -/
theorem treeHash_binds_hashes {hashes hashes' : List Hash}
    (sameCount : hashes.length = hashes'.length)
    (injective : Set.InjOn cnFastHash
      {x | x ∈ treeHashInputs cnFastHash hashes ∨
        x ∈ treeHashInputs cnFastHash hashes'})
    (sameRoot : treeHash cnFastHash hashes = treeHash cnFastHash hashes') :
    hashes = hashes' := by
  by_cases empty : hashes = []
  · subst empty
    exact (List.length_eq_zero_iff.1 sameCount.symm).symm
  have empty' : hashes' ≠ [] := fun nil => empty (by
    rw [nil, List.length_nil] at sameCount
    exact List.length_eq_zero_iff.1 sameCount)
  obtain ⟨t, built, leavesOfT, -⟩ := treeHashTree_spec empty
  obtain ⟨t', built', leavesOfT', -⟩ := treeHashTree_spec empty'
  -- the two trees have the shape of the tree over as many units
  have shapes : t.shape = t'.shape := by
    have units : hashes.map (fun _ => ()) = hashes'.map (fun _ => ()) := by
      simp only [List.map_const', sameCount]
    have sameTree := congrArg treeHashTree units
    rw [treeHashTree_map, treeHashTree_map, built, built'] at sameTree
    simpa [BinTree.shape] using sameTree
  have roots : t.root (hashPair cnFastHash) =
      t'.root (hashPair cnFastHash) := by
    rw [treeHash_eq_map_root, treeHash_eq_map_root, built, built'] at sameRoot
    simpa using sameRoot
  -- the pairs the two trees join have their bytes among the hashed inputs
  have joined : Set.InjOn (Function.uncurry (hashPair cnFastHash))
      {p | p ∈ t.joins (hashPair cnFastHash) ∨ p ∈ t'.joins (hashPair
        cnFastHash)} := by
    refine hashPair_injOn cnFastHash (injective.mono ?_)
    rintro _ ⟨p, mem | mem, rfl⟩
    · exact .inl (by rw [treeHashInputs, built]; exact List.mem_map_of_mem mem)
    · exact .inr (by rw [treeHashInputs, built']; exact List.mem_map_of_mem mem)
  rw [← leavesOfT, ← leavesOfT',
    BinTree.leaves_eq_of_injOn _ t t' shapes roots joined]

/-- `tree_hash` is the root of the binary tree with `cn_fast_hash` of the two
child roots at each node whose leaves are the hashes in order, the first
`2 * cnt - count` of them `k` levels deep and the others `k + 1`, where
`cnt = 2 ^ k` is the largest power of two below the count. -/
theorem treeHash_merkle_root {hashes : List Hash} (nonempty : hashes ≠ []) :
    ∃ t : BinTree Hash, treeHash cnFastHash hashes =
      some (t.root (hashPair cnFastHash)) ∧
      t.leaves = hashes ∧ t.depths = treeHashDepths hashes.length := by
  obtain ⟨t, built, leavesOfT, depthsOfT⟩ := treeHashTree_spec nonempty
  exact ⟨t, by rw [treeHash_eq_map_root, built]; rfl, leavesOfT, depthsOfT⟩

theorem treeHash_merkle_root_of_three_hashes :
    ([nullHash, nullHash, nullHash] : List Hash) ≠ [] ∧
      ∃ t : BinTree Hash, treeHash (fun _ => nullHash)
    [nullHash, nullHash, nullHash] =
          some (t.root (hashPair fun _ => nullHash)) ∧
        t.leaves = [nullHash, nullHash, nullHash] ∧
          t.depths = treeHashDepths 3 :=
  ⟨by simp, treeHash_merkle_root (fun _ => nullHash) (by simp)⟩

end Refinement

end Crypto
end Citicash
