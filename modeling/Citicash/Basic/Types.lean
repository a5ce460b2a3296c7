import Mathlib

/-!
# CryptoNote data types

The transaction and block records of `cryptonote_basic.h` and the RingCT
records of `rctTypes.h`.  Every 32-byte value of the C++ code
(`crypto::hash`, `crypto::public_key`, `crypto::key_image`, `rct::key`) is a
`Key`.  The RingCT records are generic in the type of their scalars and of
their points, so that the algebraic model of the signatures reads them over a
group while the byte-level model reads them over `Key`.

Amounts, offsets, timestamps and fees keep their fixed C++ widths, since sums
of them wrap.  Fields of type `size_t` that are never summed (versions,
heights, output positions) are natural numbers.
-/

namespace Citicash
namespace Cryptonote

/-- A 32-byte value: a hash, a public or secret key, a key image or a RingCT
key. -/
structure Key where
  bytes : Vector UInt8 32
  deriving DecidableEq, Repr

instance : Inhabited Key := ⟨⟨Vector.replicate 32 0⟩⟩

abbrev Hash := Key
abbrev PublicKey := Key
abbrev SecretKey := Key
abbrev KeyImage := Key

/-- `crypto::null_hash`, all bytes zero. -/
def nullHash : Hash := default

theorem Key.eq_of_bytes_toList {a b : Key}
    (same : a.bytes.toList = b.bytes.toList) : a = b := by
  obtain ⟨a⟩ := a
  obtain ⟨b⟩ := b
  have sameBytes : a = b := Vector.toList_inj.mp same
  rw [sameBytes]

/-- A key's 32 bytes followed by anything split one way only. -/
theorem Key.append_inj {a b : Key} {rest rest' : List UInt8}
    (same : a.bytes.toList ++ rest = b.bytes.toList ++ rest') :
    a = b ∧ rest = rest' := by
  obtain ⟨first, second⟩ := List.append_inj same (by simp)
  exact ⟨Key.eq_of_bytes_toList first, second⟩

/-- `crypto::signature`: the two scalars of one ring member. -/
structure Signature where
  c : Key
  r : Key
  deriving DecidableEq, Repr, Inhabited

/-! ## Outputs and inputs -/

structure TxoutToScript where
  keys : List PublicKey
  script : List UInt8
  deriving DecidableEq, Repr, Inhabited

/-- `txout_target_v`, in the order of the C++ variant. -/
inductive TxoutTargetV
  | txoutToScript (target : TxoutToScript)
  | txoutToScripthash (hash : Hash)
  | txoutToKey (key : PublicKey)
  deriving DecidableEq, Repr, Inhabited

structure TxOut where
  amount : UInt64
  target : TxoutTargetV
  deriving DecidableEq, Repr, Inhabited

structure TxinGen where
  height : Nat
  deriving DecidableEq, Repr, Inhabited

structure TxinToScript where
  prev : Hash
  prevout : Nat
  sigset : List UInt8
  deriving DecidableEq, Repr, Inhabited

structure TxinToScripthash where
  prev : Hash
  prevout : Nat
  script : TxoutToScript
  sigset : List UInt8
  deriving DecidableEq, Repr, Inhabited

structure TxinToKey where
  amount : UInt64
  keyOffsets : List UInt64
  kImage : KeyImage
  deriving DecidableEq, Repr, Inhabited

/-- `txin_v`, in the order of the C++ variant. -/
inductive TxinV
  | txinGen (input : TxinGen)
  | txinToScript (input : TxinToScript)
  | txinToScripthash (input : TxinToScripthash)
  | txinToKey (input : TxinToKey)
  deriving DecidableEq, Repr, Inhabited

namespace TxinV

/-- The key image of a `txin_to_key` input; other inputs spend none. -/
def keyImage? : TxinV → Option KeyImage
  | .txinToKey input => some input.kImage
  | _ => none

/-- `in.type() == typeid(txin_to_key)`. -/
def isToKey : TxinV → Bool
  | .txinToKey _ => true
  | _ => false

/-- `in.type() == typeid(txin_gen)`. -/
def isGen : TxinV → Bool
  | .txinGen _ => true
  | _ => false

end TxinV

/-- `account_public_address`. -/
structure AccountPublicAddress where
  spendPublicKey : PublicKey
  viewPublicKey : PublicKey
  deriving DecidableEq, Repr, Inhabited

/-! ## RingCT records -/

namespace Rct

/-- `RCTTypeNull`, `RCTTypeFull` and `RCTTypeSimple`. -/
def rctTypeNull : UInt8 := 0
def rctTypeFull : UInt8 := 1
def rctTypeSimple : UInt8 := 2

/-- `ctkey`: a destination and a commitment mask, public or secret. -/
structure CtKey (α : Type) where
  dest : α
  mask : α
  deriving DecidableEq, Repr, Inhabited

/-- `ecdhTuple`: the encoded mask and amount for one output. -/
structure EcdhTuple (S P : Type) where
  mask : S
  amount : S
  senderPk : P
  deriving DecidableEq, Repr, Inhabited

/-- `boroSig`: a Borromean signature over 64 pairs. -/
structure BoroSig (S : Type) where
  s0 : Vector S 64
  s1 : Vector S 64
  ee : S
  deriving DecidableEq, Repr, Inhabited

/-- `mgSig`: an MLSAG signature; `II` is never serialized. -/
structure MgSig (S P : Type) where
  ss : List (List S)
  cc : S
  II : List P
  deriving DecidableEq, Repr, Inhabited

/-- `rangeSig`: the bit commitments of an amount and their Borromean
signature. -/
structure RangeSig (S P : Type) where
  asig : BoroSig S
  Ci : Vector P 64
  deriving DecidableEq, Repr, Inhabited

/-- `rctSigBase`; `message` and `mixRing` are rebuilt, never serialized. -/
structure RctSigBase (S P : Type) where
  type : UInt8
  message : P
  mixRing : List (List (CtKey P))
  pseudoOuts : List P
  ecdhInfo : List (EcdhTuple S P)
  outPk : List (CtKey P)
  txnFee : UInt64
  deriving DecidableEq, Repr, Inhabited

/-- `rctSigPrunable`: one range proof per output and the MLSAG signatures. -/
structure RctSigPrunable (S P : Type) where
  rangeSigs : List (RangeSig S P)
  MGs : List (MgSig S P)
  deriving DecidableEq, Repr, Inhabited

structure RctSig (S P : Type) extends RctSigBase S P where
  p : RctSigPrunable S P
  deriving DecidableEq, Repr, Inhabited

end Rct

/-! ## Transactions and blocks -/

structure TransactionPrefix where
  version : Nat
  unlockTime : UInt64
  vin : List TxinV
  vout : List TxOut
  extra : List UInt8
  deriving DecidableEq, Repr, Inhabited

structure Transaction extends TransactionPrefix where
  signatures : List (List Signature)
  rctSignatures : Rct.RctSig Key Key
  deriving DecidableEq, Repr, Inhabited

structure BlockHeader where
  majorVersion : UInt8
  minorVersion : UInt8
  timestamp : UInt64
  prevId : Hash
  nonce : UInt32
  deriving DecidableEq, Repr, Inhabited

structure Block extends BlockHeader where
  minerTx : Transaction
  txHashes : List Hash
  deriving DecidableEq, Repr, Inhabited

namespace Transaction

/-- The key images of the `txin_to_key` inputs, in input order. -/
def keyImages (tx : Transaction) : List KeyImage :=
  tx.vin.filterMap TxinV.keyImage?

/-- `check_inputs_types_supported`: every input is a `txin_to_key`. -/
def checkInputsTypesSupported (tx : Transaction) : Bool :=
  tx.vin.all TxinV.isToKey

/-- `get_outs_money_amount`, summed with `uint64_t` wrap-around. -/
def getOutsMoneyAmount (tx : Transaction) : UInt64 :=
  tx.vout.foldl (fun money out => money + out.amount) 0

/-- `check_outs_overflow`: no partial sum of the output amounts wraps. -/
def checkOutsOverflow (tx : Transaction) : Bool :=
  (tx.vout.foldl
    (fun (state : Bool × UInt64) out =>
      (state.1 && !(state.2 > out.amount + state.2), state.2 + out.amount))
    (true, 0)).1

end Transaction

@[simp] theorem TxinV.keyImage?_txinToKey (input : TxinToKey) :
    (TxinV.txinToKey input).keyImage? = some input.kImage := rfl

end Cryptonote

/-! ## Sums in 64 bits -/

/-- A sum of `uint64_t` values is the sum of the numbers modulo `2^64`. -/
theorem toNat_sum_map {α : Type} (l : List α) (f : α → UInt64) :
    (l.map f).sum.toNat = (l.map fun x => (f x).toNat).sum % 2 ^ 64 := by
  induction l with
  | nil => rfl
  | cons x rest ih =>
    rw [List.map_cons, List.sum_cons, UInt64.toNat_add, ih,
      List.map_cons, List.sum_cons, Nat.add_mod_mod]

end Citicash
