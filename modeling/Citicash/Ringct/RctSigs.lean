import Mathlib.Algebra.BigOperators.Ring.Finset
import Mathlib.Algebra.Module.BigOperators
import Citicash.Lib.StateRun
import Citicash.Ringct.Mlsag

/-!
# RingCT signatures and the receiver's decoding

`genRct` and `genRctSimple` build a RingCT signature: for each destination
`proveRange` commits to the amount bit by bit, the commitment's mask and the
amount are sent to the receiver in `ecdhInfo`, shifted by hashes of the amount
key, and MLSAG signatures over the inputs close the transaction.
`decodeRct` and `decodeRctSimple` are the receiver's side: they take the shifts
off again and accept the amount when it opens the output's commitment.

The scalars `skGen` draws are an arbitrary function of a label saying where
they are drawn (`Draw`), the hash of `get_pre_mlsag_hash` an arbitrary
function of the signature.  Over this model a bit commitment adds up to
`mask G + amount H` (`proveRange_commitment`), the outputs of a signature that
generation returned are as its destination loop wrote them
(`genRct_outputs`, `genRctSimple_outputs`), and the receiver decodes each of
them to the amount and mask the sender encoded.
-/

namespace Citicash
namespace Cryptonote
namespace Rct

/-! ## Sums -/

theorem foldl_add_eq_sum {M ι : Type} [AddCommMonoid M] (l : List ι)
    (f : ι → M) (init : M) :
    l.foldl (fun acc i => acc + f i) init = init + (l.map f).sum := by
  induction l generalizing init with
  | nil => simp
  | cons head tail ih =>
      rw [List.foldl_cons, ih, List.map_cons, List.sum_cons, add_assoc]

/-! ## Checks -/

/-- `CHECK_AND_ASSERT_THROW_MES(expr, message)`: throws `message` unless `expr`
holds. -/
def checkAndAssertThrowMes (expr : Prop) [Decidable expr] (message : String) :
    Except String Unit :=
  if expr then pure () else throw message

/-- A computation that returned passed each of its checks. -/
theorem checkAndAssertThrowMes_bind_eq_ok {β : Type} {expr : Prop}
    [Decidable expr] {message : String} {f : Unit → Except String β} {b : β}
    (run : checkAndAssertThrowMes expr message >>= f = .ok b) :
    expr ∧ f () = .ok b := by
  unfold checkAndAssertThrowMes at run
  by_cases holds : expr
  · rw [if_pos holds] at run
    exact ⟨holds, run⟩
  · rw [if_neg holds] at run
    cases run

/-! ## Range proofs -/

section RangeProof

variable {Point : Type} [AddCommGroup Point] [Module Scalar Point]
    (curve : Curve Point)

/-- `genBorromean(x, P1, P2, indices)`, with `alpha ii`, `s0Random jj` and
`s1Random ii` the scalars `skGen` draws.  The first loop leaves in `L[1][ii]`
the point the place's bit gives (`s1 G + c P2` with `c` the hash of `alpha G`
for a zero bit, `alpha G` for a one); `ee` hashes the 64 of them, and the
second loop closes each place against `ee`. -/
def genBorromean (x : Vector Scalar 64) (P1 P2 : Vector Point 64)
    (indices : Vector Nat 64) (alpha s0Random s1Random : Nat → Scalar) :
    BoroSig Scalar :=
  let L1 : Vector Point 64 := Vector.ofFn fun ii =>
    if indices[ii] = 0 then
      addKeys2 curve (s1Random ii)
        (curve.hashToScalar [scalarmultBase curve (alpha ii)]) P2[ii]
    else scalarmultBase curve (alpha ii)
  let ee := curve.hashToScalar L1.toList
  { s0 := Vector.ofFn fun jj =>
      if indices[jj] = 0 then alpha jj - x[jj] * ee else s0Random jj
    s1 := Vector.ofFn fun jj =>
      if indices[jj] = 0 then s1Random jj
      else alpha jj - x[jj] *
             curve.hashToScalar [addKeys2 curve (s0Random jj) ee P1[jj]]
    ee }

/-- `proveRange(C, mask, amount)`, with `ai i` the scalar `skGen` draws for bit
`i` and the draws of `genBorromean` after them: the commitment `C`, its mask,
and the range signature.  Bit `i` commits as `ai G`, or as `ai G + H2[i]` when
it is set (`d2b` leaves only zeros and ones); `C` and the mask add up the 64
commitments and their masks. -/
def proveRange (amount : UInt64) (ai alpha s0Random s1Random : Nat → Scalar) :
    Point × Scalar × RangeSig Scalar Point :=
  let b := d2b amount
  let Ci : Vector Point 64 := Vector.ofFn fun i =>
    if b[i] = 0 then scalarmultBase curve (ai i)
      else addKeys1 curve (ai i) (h2 curve i)
  let CiH : Vector Point 64 := Vector.ofFn fun i => subKeys Ci[i] (h2 curve i)
  let mask := (List.finRange 64).foldl (fun mask (i : Fin 64) => mask + ai i) 0
  let C := (List.finRange 64).foldl (fun C i => addKeys C Ci[i]) 0
  (C, mask,
    ⟨genBorromean curve (Vector.ofFn fun i => ai i) Ci CiH b alpha
      s0Random s1Random, Ci⟩)

theorem sum_map_smul {ι : Type} (l : List ι) (f : ι → Scalar) (x : Point) :
    (l.map fun i => f i • x).sum = (l.map f).sum • x := by
  rw [List.sum_smul, List.map_map]
  rfl

/-- The bits of `d2b` add up to the amount. -/
theorem sum_d2b (val : UInt64) :
    (List.ofFn fun i : Fin 64 => (d2b val)[i] *
      2 ^ (i : Nat)).sum = val.toNat := by
  have digits := BlockCodec.mod_pow_eq_sum_digits 2 64 val.toNat
  rw [Nat.mod_eq_of_lt val.toNat_lt] at digits
  rw [digits, ← ofFn_eq_map_range]
  congr 1
  exact congrArg List.ofFn
    (funext fun i => by rw [Fin.getElem_fin, getElem_d2b val i i.isLt])

/-- A bit commitment is `ai G` plus the bit's weight times `H`. -/
theorem bit_commitment (amount : UInt64) (ai : Nat → Scalar) (i : Fin 64) :
    (if (d2b amount)[(i : Nat)] = 0 then scalarmultBase curve (ai i)
      else addKeys1 curve (ai i) (h2 curve i)) =
      ai i • curve.G +
        (((d2b amount)[(i : Nat)] * 2 ^ (i : Nat) : Nat) :
          Scalar) • curve.H := by
  have bit : (d2b amount)[(i : Nat)] = 0 ∨ (d2b amount)[(i : Nat)] = 1 := by
    rw [getElem_d2b amount i i.isLt]
    exact Nat.mod_two_eq_zero_or_one _
  rcases bit with zero | one
  · rw [if_pos zero, zero, Nat.zero_mul, Nat.cast_zero, zero_smul, add_zero,
      scalarmultBase_eq]
  · rw [if_neg (by omega), one, Nat.one_mul, addKeys1_eq, h2,
      Nat.cast_pow, Nat.cast_ofNat]

/-- **The commitment of a range proof opens to the amount**:
`C = mask G + amount H`. -/
theorem proveRange_commitment (amount : UInt64)
    (ai alpha s0Random s1Random : Nat → Scalar) :
    (proveRange curve amount ai alpha s0Random s1Random).1 =
      addKeys2 curve (proveRange curve amount ai alpha s0Random s1Random).2.1
        (amount.toNat : Scalar)
        curve.H := by
  have maskSum : (proveRange curve amount ai alpha s0Random s1Random).2.1 =
      ((List.finRange 64).map fun i : Fin 64 => ai i).sum := by
    simp only [proveRange]
    rw [foldl_add_eq_sum, zero_add]
  have commitmentSum : (proveRange curve amount ai alpha s0Random s1Random).1 =
      ((List.finRange 64).map fun i : Fin 64 =>
        ai i • curve.G +
          (((d2b amount)[(i : Nat)] * 2 ^ (i : Nat) : Nat) : Scalar) •
            curve.H).sum := by
    rw [← zero_add (List.sum _), ← foldl_add_eq_sum]
    simp only [proveRange, addKeys_eq, Fin.getElem_fin,
      Vector.getElem_ofFn, bit_commitment]
  -- the bits' weights add up to the amount
  have bits : ((List.finRange 64).map fun i : Fin 64 =>
      (((d2b amount)[(i : Nat)] * 2 ^ (i : Nat) : Nat) : Scalar)).sum =
        (amount.toNat : Scalar) := by
    rw [← sum_d2b amount, Nat.cast_list_sum, List.ofFn_eq_map, List.map_map]
    rfl
  rw [commitmentSum, maskSum, List.sum_map_add, sum_map_smul, sum_map_smul,
    bits, addKeys2_eq]

end RangeProof

/-! ## Generation -/

/-- The scalars `skGen` draws while a signature is built, each named by where
it is drawn. -/
inductive Draw where
  /-- `ai[bit]` of the `proveRange` of output `output`. -/
  | rangeMask (output bit : Nat)
  /-- `alpha[bit]` of that range proof's `genBorromean`. -/
  | borromeanAlpha (output bit : Nat)
  /-- `bb.s0[bit]` of that `genBorromean`, drawn for a set bit. -/
  | borromeanS0 (output bit : Nat)
  /-- `bb.s1[bit]` of that `genBorromean`, drawn for a clear bit. -/
  | borromeanS1 (output bit : Nat)
  /-- The secret of row `row` of the `MLSAG_Gen` of input `input`. -/
  | mlsagAlpha (input row : Nat)
  /-- Row `row` of column `column` of the `MLSAG_Gen` of input `input`. -/
  | mlsagSs (input column row : Nat)
  /-- `a[input]` of `genRctSimple`, the mask of a pseudo output. -/
  | pseudoOutMask (input : Nat)
  deriving DecidableEq, Repr

/-- `rv.serialize_rctsig_base(ar, inputs, outputs)` as it writes: whether it
succeeds.  A null signature writes its type only; a type other than the full
and the simple one fails, and so do vectors of other sizes than given. -/
def serializeRctsigBase {S P : Type} (rv : RctSigBase S P)
    (inputs outputs : Nat) : Bool :=
  if rv.type = rctTypeNull then true
  else if rv.type ≠ rctTypeFull ∧ rv.type ≠ rctTypeSimple then false
  else if rv.type = rctTypeSimple ∧ rv.pseudoOuts.length ≠ inputs then false
  else if rv.ecdhInfo.length ≠ outputs then false
  else decide (rv.outPk.length = outputs)

section Generation

variable {Point : Type} [AddCommGroup Point] [Module Scalar Point]
    (curve : Curve Point)
  (random : Draw → Scalar) (preMlsagHash : RctSig Scalar Point → Point)

/-- `get_pre_mlsag_hash(rv)`: the hash of the message, the serialized base and
the range proofs, which the model leaves an arbitrary function `preMlsagHash`
of the signature; it throws when the base does not serialize. -/
def getPreMlsagHash (rv : RctSig Scalar Point) : Except String Point :=
  if serializeRctsigBase rv.toRctSigBase rv.pseudoOuts.length
    rv.ecdhInfo.length then
    pure (preMlsagHash rv)
  else throw "Failed to serialize rctSigBase"

/-- `proveRctMG(message, pubs, inSk, outSk, outPk, index, txnFeeKey)`: the MLSAG
signature over the columns' destinations and a last row holding each column's
input commitments less the output commitments and the fee's; the secret of
that row is the input masks less the output masks. -/
def proveRctMG (message : Point) (pubs : List (List (CtKey Point)))
    (inSk outSk : List (CtKey Scalar))
    (outPk : List (CtKey Point)) (index : Nat)
    (txnFeeKey : Point) (alpha : Nat → Scalar) (ssRandom : Nat → Nat → Scalar) :
    Except String (MgSig Scalar Point) := do
  let cols := pubs.length
  checkAndAssertThrowMes (cols ≥ 1) "Empty pubs"
  let rows := (pubs.getD 0 []).length
  checkAndAssertThrowMes (rows ≥ 1) "Empty pubs"
  checkAndAssertThrowMes (∀ column ∈ pubs.drop 1, column.length = rows)
    "pubs is not rectangular"
  checkAndAssertThrowMes (inSk.length = rows) "Bad inSk size"
  checkAndAssertThrowMes (outSk.length = outPk.length) "Bad outSk/outPk size"
  let M := pubs.map fun column =>
    column.map (·.dest) ++
      [subKeys (outPk.foldl (fun sum out => subKeys sum out.mask)
        (column.foldl (fun sum pub => addKeys sum pub.mask) 0)) txnFeeKey]
  let sk := inSk.map (·.dest) ++
    [outSk.foldl (fun sum out => sum - out.mask)
      (inSk.foldl (fun sum secret => sum + secret.mask) 0)]
  mlsagGen curve message M sk index rows alpha ssRandom

/-- `proveRctMGSimple(message, pubs, inSk, a, Cout, index)`: the MLSAG signature
over a ring of one input, with a second row holding each member's commitment
less the pseudo output `Cout`. -/
def proveRctMGSimple (message : Point) (pubs : List (CtKey Point))
    (inSk : CtKey Scalar) (a : Scalar) (Cout : Point) (index : Nat)
    (alpha : Nat → Scalar) (ssRandom : Nat → Nat → Scalar) :
    Except String (MgSig Scalar Point) := do
  checkAndAssertThrowMes (pubs.length ≥ 1) "Empty pubs"
  let M := pubs.map fun pub => [pub.dest, subKeys pub.mask Cout]
  let sk := [inSk.dest, inSk.mask - a]
  mlsagGen curve message M sk index 1 alpha ssRandom

/-- Output `i` as the destination loops of `genRct` and `genRctSimple` build it
from `amounts[i]`: `rv.outPk[i]`, `outSk[i]` (its mask only: the loop does not
write the destination), the range proof, and `rv.ecdhInfo[i]`, the mask and the
amount encoded with `amount_keys[i]`. -/
def proveOutput (destinations : List Point) (amounts : List UInt64)
    (amountKeys : List Scalar) (i : Nat) :
    CtKey Point × CtKey Scalar × RangeSig Scalar Point ×
      EcdhTuple Scalar Point :=
  let proof :=
    proveRange curve (amounts.getD i 0) (fun bit => random (.rangeMask i bit))
    (fun bit => random (.borromeanAlpha i bit))
      (fun bit => random (.borromeanS0 i bit))
    (fun bit => random (.borromeanS1 i bit))
  (⟨destinations.getD i 0, proof.1⟩, ⟨0, proof.2.1⟩, proof.2.2,
    ecdhEncode curve ⟨proof.2.1, keyToScalar (d2h (amounts.getD i 0)), 0⟩
      (amountKeys.getD i 0))

/-- `genRct(message, inSk, destinations, amounts, mixRing, amount_keys,
index, outSk)`: the full signature and `outSk`.  An amount past the
destinations' is the fee. -/
def genRct (message : Point) (inSk : List (CtKey Scalar))
    (destinations : List Point) (amounts : List UInt64)
    (mixRing : List (List (CtKey Point))) (amountKeys : List Scalar)
    (index : Nat) :
    Except String (RctSig Scalar Point × List (CtKey Scalar)) := do
  checkAndAssertThrowMes
    (amounts.length = destinations.length ∨
      amounts.length = destinations.length + 1)
    "Different number of amounts/destinations"
  checkAndAssertThrowMes (amountKeys.length = destinations.length)
    "Different number of amount_keys/destinations"
  checkAndAssertThrowMes (index < mixRing.length) "Bad index into mixRing"
  checkAndAssertThrowMes (∀ column ∈ mixRing, column.length = inSk.length)
    "Bad mixRing size"
  let outputs := (List.range destinations.length).map
    (proveOutput curve random destinations amounts amountKeys)
  let outSk := outputs.map (·.2.1)
  let txnFee :=
    if amounts.length > destinations.length
      then amounts.getD destinations.length 0
    else 0
  let rv : RctSig Scalar Point :=
    { type := rctTypeFull, message, mixRing, pseudoOuts := [],
      ecdhInfo := outputs.map (·.2.2.2), outPk := outputs.map (·.1), txnFee,
      p := { rangeSigs := outputs.map (·.2.2.1), MGs := [] } }
  let txnFeeKey := scalarmultH curve (keyToScalar (d2h txnFee))
  let fullMessage ← getPreMlsagHash preMlsagHash rv
  let mg ← proveRctMG curve fullMessage mixRing inSk outSk
      rv.outPk index txnFeeKey
    (fun row => random (.mlsagAlpha 0 row))
      (fun column row => random (.mlsagSs 0 column row))
  pure ({ rv with p := { rv.p with MGs := rv.p.MGs ++ [mg] } }, outSk)

/-- `genRctSimple(message, inSk, destinations, inamounts, outamounts, txnFee,
mixRing, amount_keys, index, outSk)`: the simple signature and `outSk`.  The
pseudo outputs' masks are drawn but the last, which makes them add up to the
output masks. -/
def genRctSimple (message : Point) (inSk : List (CtKey Scalar))
    (destinations : List Point) (inamounts outamounts : List UInt64)
    (txnFee : UInt64) (mixRing : List (List (CtKey Point)))
    (amountKeys : List Scalar) (index : List Nat) :
    Except String (RctSig Scalar Point × List (CtKey Scalar)) := do
  checkAndAssertThrowMes (inamounts.length > 0) "Empty inamounts"
  checkAndAssertThrowMes (inamounts.length = inSk.length)
    "Different number of inamounts/inSk"
  checkAndAssertThrowMes (outamounts.length = destinations.length)
    "Different number of amounts/destinations"
  checkAndAssertThrowMes (amountKeys.length = destinations.length)
    "Different number of amount_keys/destinations"
  checkAndAssertThrowMes (index.length = inSk.length)
    "Different number of index/inSk"
  checkAndAssertThrowMes (mixRing.length = inSk.length)
    "Different number of mixRing/inSk"
  checkAndAssertThrowMes
    (∀ n < mixRing.length, index.getD n 0 < (mixRing.getD n []).length)
    "Bad index into mixRing"
  let outputs := (List.range destinations.length).map
    (proveOutput curve random destinations outamounts amountKeys)
  let outSk := outputs.map (·.2.1)
  let sumout := outSk.foldl (fun sum out => out.mask + sum) 0
  let inputs := inamounts.length
  let drawn := (List.range (inputs - 1)).map fun i => random (.pseudoOutMask i)
  let a := drawn ++ [sumout - drawn.foldl (fun sumpouts ai => ai + sumpouts) 0]
  let pseudoOuts :=
    (List.range inputs).map fun i => genC curve (a.getD i 0)
      (inamounts.getD i 0)
  let rv : RctSig Scalar Point :=
    { type := rctTypeSimple, message, mixRing, pseudoOuts,
      ecdhInfo := outputs.map (·.2.2.2), outPk := outputs.map (·.1), txnFee,
      p := { rangeSigs := outputs.map (·.2.2.1),
             MGs := List.replicate inputs ⟨[], 0, []⟩ } }
  let fullMessage ← getPreMlsagHash preMlsagHash rv
  let MGs ← (List.range inputs).mapM fun i =>
    proveRctMGSimple curve fullMessage (mixRing.getD i [])
      (inSk.getD i ⟨0, 0⟩) (a.getD i 0)
      (pseudoOuts.getD i 0) (index.getD i 0)
        (fun row => random (.mlsagAlpha i row))
      (fun column row => random (.mlsagSs i column row))
  pure ({ rv with p := { rv.p with MGs } }, outSk)

end Generation

/-! ## Decoding -/

section Decoding

variable {Point : Type} [AddCommGroup Point] [Module Scalar Point]
    [DecidableEq Point]
  (curve : Curve Point)

/-- The body `decodeRct` and `decodeRctSimple` share, for signatures of type
`rctType`: the amount and the mask of output `i` under the amount key `sk`, or
the message of the check that throws.  A signature of another type gives `0`
and leaves `mask` as it was (`CHECK_AND_ASSERT_MES` returns `false`). -/
def decodeRctOfType (rctType : UInt8) (rv : RctSig Scalar Point)
    (sk : Scalar) (i : Nat) (mask : Scalar) (enableErrors : Bool) :
    Except String (UInt64 × Scalar) := do
  if rv.type ≠ rctType then return (0, mask)
  if rv.p.rangeSigs.length = 0 then throw "Empty rv.p.rangeSigs"
  if rv.outPk.length ≠ rv.p.rangeSigs.length then
    throw "Mismatched sizes of rv.outPk and rv.p.rangeSigs"
  if rv.ecdhInfo.length ≤ i then throw "Bad index"
  let ecdhInfo := ecdhDecode curve (rv.ecdhInfo.getD i ⟨0, 0, 0⟩) sk
  let C := (rv.outPk.getD i ⟨0, 0⟩).mask
  let Ctmp := addKeys2 curve ecdhInfo.mask ecdhInfo.amount curve.H
  if C ≠ Ctmp then
    if enableErrors
      then throw "warning, amount decoded incorrectly, will be unable to spend"
    else throw "incorrectly decrypted amount"
  return (h2d (scalarToKey ecdhInfo.amount), ecdhInfo.mask)

/-- `decodeRct(rv, sk, i, mask, enable_errors)`. -/
def decodeRct (rv : RctSig Scalar Point) (sk : Scalar) (i : Nat) (mask : Scalar)
    (enableErrors : Bool) : Except String (UInt64 × Scalar) :=
  decodeRctOfType curve rctTypeFull rv sk i mask enableErrors

/-- `decodeRctSimple(rv, sk, i, mask, enable_errors)`. -/
def decodeRctSimple (rv : RctSig Scalar Point) (sk : Scalar)
    (i : Nat) (mask : Scalar) (enableErrors : Bool) :
    Except String (UInt64 × Scalar) :=
  decodeRctOfType curve rctTypeSimple rv sk i mask enableErrors

end Decoding

/-! ## What generation leaves for the receiver -/

section Outputs

variable {Point : Type} [AddCommGroup Point] [Module Scalar Point]
    (curve : Curve Point)
  (random : Draw → Scalar) (preMlsagHash : RctSig Scalar Point → Point)

/-- A full signature that `genRct` returns holds the outputs of its
destination loop. -/
theorem genRct_outputs {message : Point} {inSk : List (CtKey Scalar)}
    {destinations : List Point} {amounts : List UInt64}
    {mixRing : List (List (CtKey Point))} {amountKeys : List Scalar}
    {index : Nat} {rv : RctSig Scalar Point} {outSk : List (CtKey Scalar)}
    (generated : genRct curve random preMlsagHash message inSk
      destinations amounts mixRing amountKeys index = .ok (rv, outSk)) :
    let outputs := (List.range destinations.length).map
      (proveOutput curve random destinations amounts amountKeys)
    rv.type = rctTypeFull ∧ rv.outPk = outputs.map (·.1) ∧
      rv.p.rangeSigs = outputs.map (·.2.2.1) ∧
        rv.ecdhInfo = outputs.map (·.2.2.2) ∧
      outSk = outputs.map (·.2.1) := by
  intro outputs
  unfold genRct at generated
  -- every check passed
  obtain ⟨-, generated⟩ := checkAndAssertThrowMes_bind_eq_ok generated
  obtain ⟨-, generated⟩ := checkAndAssertThrowMes_bind_eq_ok generated
  obtain ⟨-, generated⟩ := checkAndAssertThrowMes_bind_eq_ok generated
  obtain ⟨-, generated⟩ := checkAndAssertThrowMes_bind_eq_ok generated
  obtain ⟨fullMessage, -, signed⟩ := StateRun.except_bind_eq_ok.1 generated
  obtain ⟨mg, -, returned⟩ := StateRun.except_bind_eq_ok.1 signed
  cases returned
  exact ⟨rfl, rfl, rfl, rfl, rfl⟩

/-- A simple signature that `genRctSimple` returns holds the outputs of its
destination loop. -/
theorem genRctSimple_outputs {message : Point} {inSk : List (CtKey Scalar)}
    {destinations : List Point} {inamounts outamounts : List UInt64}
    {txnFee : UInt64} {mixRing : List (List (CtKey Point))}
    {amountKeys : List Scalar} {index : List Nat}
    {rv : RctSig Scalar Point} {outSk : List (CtKey Scalar)}
    (generated : genRctSimple curve random preMlsagHash message inSk
      destinations inamounts outamounts txnFee mixRing amountKeys index =
        .ok (rv, outSk)) :
    let outputs := (List.range destinations.length).map
      (proveOutput curve random destinations outamounts amountKeys)
    rv.type = rctTypeSimple ∧ rv.outPk = outputs.map (·.1) ∧
      rv.p.rangeSigs = outputs.map (·.2.2.1) ∧
        rv.ecdhInfo = outputs.map (·.2.2.2) ∧
      outSk = outputs.map (·.2.1) := by
  intro outputs
  unfold genRctSimple at generated
  -- every check passed
  obtain ⟨-, generated⟩ := checkAndAssertThrowMes_bind_eq_ok generated
  obtain ⟨-, generated⟩ := checkAndAssertThrowMes_bind_eq_ok generated
  obtain ⟨-, generated⟩ := checkAndAssertThrowMes_bind_eq_ok generated
  obtain ⟨-, generated⟩ := checkAndAssertThrowMes_bind_eq_ok generated
  obtain ⟨-, generated⟩ := checkAndAssertThrowMes_bind_eq_ok generated
  obtain ⟨-, generated⟩ := checkAndAssertThrowMes_bind_eq_ok generated
  obtain ⟨-, generated⟩ := checkAndAssertThrowMes_bind_eq_ok generated
  obtain ⟨fullMessage, -, signed⟩ := StateRun.except_bind_eq_ok.1 generated
  obtain ⟨MGs, -, returned⟩ := StateRun.except_bind_eq_ok.1 signed
  cases returned
  exact ⟨rfl, rfl, rfl, rfl, rfl⟩

end Outputs

/-! ## Decoding what generation encoded -/

section Receiving

variable {Point : Type} [AddCommGroup Point] [Module Scalar Point]
    [DecidableEq Point]
  (curve : Curve Point) (random : Draw → Scalar)

/-- The receiver decodes output `i` of a signature whose outputs are those of
the destination loop to the amount and the mask the sender encoded: the shifts
come off, the amount opens the commitment, and `h2d` reads it back. -/
theorem decodeRctOfType_proveOutput (rctType : UInt8) (rv : RctSig Scalar Point)
    (destinations : List Point) (amounts : List UInt64)
    (amountKeys : List Scalar) (typed : rv.type = rctType)
    (outPk : rv.outPk = ((List.range destinations.length).map
      (proveOutput curve random destinations amounts amountKeys)).map (·.1))
    (rangeSigs : rv.p.rangeSigs = ((List.range destinations.length).map
      (proveOutput curve random destinations amounts amountKeys)).map (·.2.2.1))
    (ecdhInfo : rv.ecdhInfo = ((List.range destinations.length).map
      (proveOutput curve random destinations amounts amountKeys)).map (·.2.2.2))
    {i : Nat} (within : i < destinations.length) (mask : Scalar)
    (enableErrors : Bool) :
    decodeRctOfType curve rctType rv (amountKeys.getD i 0) i mask enableErrors =
      .ok (amounts.getD i 0,
        (proveOutput curve random destinations amounts amountKeys
          i).2.1.mask) := by
  -- the commitment opens to the amount the sender wrote with `d2h`
  have opens :=
    proveRange_commitment curve (amounts.getD i 0)
      (fun bit => random (.rangeMask i bit))
    (fun bit => random (.borromeanAlpha i bit))
      (fun bit => random (.borromeanS0 i bit))
    (fun bit => random (.borromeanS1 i bit))
  rw [← keyToScalar_d2h] at opens
  simp only [decodeRctOfType, typed, rangeSigs, outPk, ecdhInfo, List.map_map,
    List.length_map, List.length_range, getD_map_range _ within,
    Function.comp_apply, proveOutput, ecdhDecode_ecdhEncode,
    opens, h2d_scalarToKey_keyToScalar_d2h]
  -- every check passes, and the commitment is the one recomputed
  have nonempty : destinations.length ≠ 0 := by omega
  have present : ¬destinations.length ≤ i := by omega
  rw [if_neg (fun differ => differ rfl), if_neg nonempty,
    if_neg (fun differ => differ rfl), if_neg present,
    if_neg (fun differ => differ rfl)]
  rfl

variable (preMlsagHash : RctSig Scalar Point → Point)

/-- Output `i` of a full signature decodes to its amount and mask. -/
theorem decodeRct_genRct {message : Point} {inSk : List (CtKey Scalar)}
    {destinations : List Point} {amounts : List UInt64}
    {mixRing : List (List (CtKey Point))} {amountKeys : List Scalar}
    {index : Nat} {rv : RctSig Scalar Point} {outSk : List (CtKey Scalar)}
    (generated : genRct curve random preMlsagHash message inSk
      destinations amounts mixRing amountKeys index = .ok (rv, outSk))
    {i : Nat} (within : i < destinations.length) (mask : Scalar)
    (enableErrors : Bool) :
    decodeRct curve rv (amountKeys.getD i 0) i mask enableErrors =
      .ok (amounts.getD i 0, (outSk.getD i ⟨0, 0⟩).mask) := by
  obtain ⟨full, outPk, rangeSigs, ecdhInfo, secrets⟩ :=
    genRct_outputs curve random preMlsagHash generated
  rw [secrets, List.map_map, getD_map_range _ within]
  exact decodeRctOfType_proveOutput curve random rctTypeFull rv destinations
    amounts amountKeys full
    outPk rangeSigs ecdhInfo within mask enableErrors

/-- Output `i` of a simple signature decodes to its amount and mask. -/
theorem decodeRctSimple_genRctSimple {message : Point}
    {inSk : List (CtKey Scalar)} {destinations : List Point}
    {inamounts outamounts : List UInt64} {txnFee : UInt64}
    {mixRing : List (List (CtKey Point))} {amountKeys : List Scalar}
    {index : List Nat} {rv : RctSig Scalar Point} {outSk : List (CtKey Scalar)}
    (generated : genRctSimple curve random preMlsagHash message inSk
      destinations inamounts outamounts txnFee mixRing amountKeys index =
        .ok (rv, outSk))
    {i : Nat} (within : i < destinations.length) (mask : Scalar)
    (enableErrors : Bool) :
    decodeRctSimple curve rv (amountKeys.getD i 0) i mask enableErrors =
      .ok (outamounts.getD i 0, (outSk.getD i ⟨0, 0⟩).mask) := by
  obtain ⟨simple, outPk, rangeSigs, ecdhInfo, secrets⟩ :=
    genRctSimple_outputs curve random preMlsagHash generated
  rw [secrets, List.map_map, getD_map_range _ within]
  exact decodeRctOfType_proveOutput curve random rctTypeSimple rv destinations
    outamounts amountKeys
    simple outPk rangeSigs ecdhInfo within mask enableErrors

/-- **The receiver decodes exactly what the sender encoded.**  For every
output of a signature that `genRct` or `genRctSimple` returned, the decoding
with the output's amount key does not throw, returns the output's amount and
sets the mask to the one in `outSk`. -/
theorem receiver_decodes_sent_amounts :
    (∀ (message : Point) inSk destinations amounts mixRing
      amountKeys index rv outSk, genRct curve random preMlsagHash message inSk
        destinations amounts mixRing amountKeys index =
        .ok (rv, outSk) →
      ∀ i < destinations.length, ∀ mask enableErrors,
        decodeRct curve rv (amountKeys.getD i 0) i mask enableErrors =
          .ok (amounts.getD i 0, (outSk.getD i ⟨0, 0⟩).mask)) ∧
    (∀ (message : Point) inSk destinations inamounts outamounts txnFee mixRing
      amountKeys index rv outSk,
      genRctSimple curve random preMlsagHash message inSk destinations inamounts
        outamounts txnFee
          mixRing amountKeys index = .ok (rv, outSk) →
      ∀ i < destinations.length, ∀ mask enableErrors,
        decodeRctSimple curve rv (amountKeys.getD i 0) i mask enableErrors =
          .ok (outamounts.getD i 0, (outSk.getD i ⟨0, 0⟩).mask)) := by
  constructor
  · intro _ _ _ _ _ _ _ _ _ generated i within mask enableErrors
    exact decodeRct_genRct curve random preMlsagHash generated within
      mask enableErrors
  · intro _ _ _ _ _ _ _ _ _ _ _ generated i within mask enableErrors
    exact decodeRctSimple_genRctSimple curve random preMlsagHash
      generated within mask enableErrors

end Receiving

theorem exists_eq_ok_of_isOk {ε α : Type} {x : Except ε α}
    (succeeded : x.isOk = true) :
    ∃ a, x = .ok a := by
  cases x with
  | error e => cases succeeded
  | ok a => exact ⟨a, rfl⟩

/-- One output of five units, sent in a full signature over a ring of two
members and in a simple one over a ring of two, with points the scalars
themselves: both are generated, and the receiver decodes the five units. -/
theorem receiver_decodes_five_units :
    (∃ rv outSk, genRct (⟨1, 2, id, List.sum, id⟩ : Curve Scalar)
      (fun _ => 0) (fun _ => 0) 0 [⟨1, 2⟩] [0] [5] [[⟨0, 0⟩], [⟨0, 0⟩]]
    [3] 0 = .ok (rv, outSk) ∧
      decodeRct (⟨1, 2, id, List.sum, id⟩ : Curve Scalar) rv 3 0 0 true =
        .ok (5, (outSk.getD 0 ⟨0, 0⟩).mask)) ∧
    (∃ rv outSk, genRctSimple (⟨1, 2, id, List.sum, id⟩ : Curve Scalar)
      (fun _ => 0) (fun _ => 0) 0 [⟨1, 2⟩] [0] [5] [5] 0 [[⟨0, 0⟩, ⟨0, 0⟩]] [3]
    [0] = .ok (rv, outSk) ∧
      decodeRctSimple (⟨1, 2, id, List.sum, id⟩ : Curve Scalar) rv 3 0 0 true =
        .ok (5, (outSk.getD 0 ⟨0, 0⟩).mask)) := by
  obtain ⟨⟨rv, outSk⟩, generated⟩ := exists_eq_ok_of_isOk
    (x := genRct (⟨1, 2, id, List.sum, id⟩ : Curve Scalar)
      (fun _ => 0) (fun _ => 0) 0
      [⟨1, 2⟩] [0] [5] [[⟨0, 0⟩], [⟨0, 0⟩]] [3] 0) (by decide)
  obtain ⟨⟨rvSimple, outSkSimple⟩, generatedSimple⟩ := exists_eq_ok_of_isOk
    (x := genRctSimple (⟨1, 2, id, List.sum, id⟩ : Curve Scalar)
      (fun _ => 0) (fun _ => 0) 0
      [⟨1, 2⟩] [0] [5] [5] 0 [[⟨0, 0⟩, ⟨0, 0⟩]] [3] [0]) (by decide)
  exact ⟨⟨rv, outSk, generated,
    (receiver_decodes_sent_amounts _ _ _).1 _ _ _ _ _ _ _ _ _
      generated 0 (by decide) 0 true⟩,
    ⟨rvSimple, outSkSimple, generatedSimple,
      (receiver_decodes_sent_amounts _ _ _).2 _ _ _ _ _ _ _ _
      _ _ _ generatedSimple 0 (by decide) 0 true⟩⟩

end Rct
end Cryptonote
end Citicash
