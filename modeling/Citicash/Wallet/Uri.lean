import Citicash.CryptonoteCore.FormatUtils

/-!
# Payment URIs

`wallet2::make_uri` writes a payment request as the scheme `citicash:`, the
address, and then, each only when it is given, `tx_payment_id`, `tx_amount`,
`recipient_name` and `tx_description` as `key=value` parameters after a `?` and
between `&`.  `wallet2::parse_uri` reads such a URI into its reference
parameters.  Amounts are written by `print_money` and read by `parse_amount` of
`cryptonote_format_utils.cpp`; free text goes through epee's
`conver_to_url_format` and comes back through `convert_from_url_format`.

`parse_uri` compares the first 7 characters of the URI with the 9-character
scheme, so it refuses every URI, those `make_uri` writes among them
(`parseUri_wrong_scheme`); what follows the check, `parseUriRemainder`, is
never reached.

Strings are lists of characters whose codes are the bytes of the C++ string;
`cn_fast_hash` and `check_key` are parameters, as in the address module.
-/

namespace Citicash
namespace Wallet

open Cryptonote CryptonoteCore

/-! ## Payment notes -/

/-- `HASH_SIZE`. -/
def hashSize : Nat := 32

/-- `pay_id_charset` of `wallet2::parse_payment_note`. -/
def payIdCharset : List Char :=
  "abcdefghijklmnopqrstuvwxyzABCDEFGHIJKLMNOPQRSTUVWXYZ0123456789/-?:().,_+ ".toList

/-- `wallet2::parse_payment_note(payment_id_str, payment_id)`: at most
`HASH_SIZE` characters, each from the charset; the note is kept as it is.  The
length and the count of legal characters are `unsigned int`s. -/
def parsePaymentNote (paymentIdStr : List Char) : Option (List Char) :=
  let len := paymentIdStr.length % 2 ^ 32
  let countlegal := paymentIdStr.countP (payIdCharset.contains ·) % 2 ^ 32
  let allcharsLegal := countlegal == len
  if len ≤ hashSize && allcharsLegal then some paymentIdStr else none

/-! ## URL escaping of `epee::net_utils` -/

/-- `get_hex_vals()`. -/
def getHexVals : List Char := "0123456789ABCDEF".toList

/-- `get_unsave_chars()`; unlike the list in the comment beside it, it has
neither `=`, `?` nor `/`. -/
def getUnsaveChars : List Char := "\"<>%\\^[]`+$,@:;!#&".toList

/-- `is_unsafe(compare_char)`: control characters and the space, the bytes
from `0x7b` up, and the unsafe punctuation. -/
def isUnsafe (compareChar : Char) : Bool :=
  compareChar.toNat ≤ 32 || compareChar.toNat ≥ 123 ||
    getUnsaveChars.contains compareChar

/-- The loop of `dec_to_hex(num, 16)`: while the value has two digits, its last
digit replaces what `csTmp` held and the value is divided. -/
def decToHexLoop (numChar : Nat) (csTmp : List Char) : Nat × List Char :=
  if 16 ≤ numChar
    then decToHexLoop (numChar / 16) [getHexVals.getD (numChar % 16) '0']
  else (numChar, csTmp)
termination_by numChar

/-- `dec_to_hex(num, 16)`, the radix `convert` passes: a signed `char` is moved
into `[0, 256)`, and a one-digit result gets a leading `0`. -/
def decToHex (num : Char) : List Char :=
  let (numChar, csTmp) := decToHexLoop (num.toNat % 256) []
  let csTmp := csTmp ++ [getHexVals.getD numChar '0']
  let csTmp := if csTmp.length < 2 then csTmp ++ ['0'] else csTmp
  csTmp.reverse

/-- `convert(val)`: `%` and two hex digits. -/
def convert (val : Char) : List Char := '%' :: decToHex val

/-- `conver_to_url_format(uri)`: every unsafe character converted. -/
def converToUrlFormat (uri : List Char) : List Char :=
  uri.flatMap fun c => if isUnsafe c then convert c else [c]

/-- `get_index(s, c)`: the place of `c` among the first sixteen of `s`. -/
def getIndex (s : List Char) (c : Char) : Option Nat := (s.take 16).idxOf? c

/-- `hex_to_dec_2bytes(s)`: the byte two hex digits of either case stand for,
or `%` and the two characters as they were. -/
def hexToDec2bytes (first second : Char) : List Char :=
  match getIndex getHexVals first.toUpper,
    getIndex getHexVals second.toUpper with
  | some i0, some i1 => [Char.ofNat (i0 * 16 ||| i1)]
  | _, _ => ['%', first, second]

/-- `convert_from_url_format(uri)`: a `%` with two characters after it is read
as a byte, and the loop goes on past the two. -/
def convertFromUrlFormat : List Char → List Char
  | '%' :: first :: second :: rest =>
      hexToDec2bytes first second ++ convertFromUrlFormat rest
  | c :: rest => c :: convertFromUrlFormat rest
  | [] => []

/-! ## Writing and reading a URI -/

/-- The values `parse_uri` writes through its reference parameters; it starts
from the caller's. -/
structure UriFields where
  address : List Char
  paymentId : List Char
  amount : UInt64
  txDescription : List Char
  recipientName : List Char
  unknownParameters : List (List Char)
  deriving DecidableEq, Repr, Inhabited

/-- `uri += (n_fields++ ? "&" : "?") + parameter`. -/
def appendUriField (state : List Char × Nat) (parameter : List Char) :
    List Char × Nat :=
  (state.1 ++ (if state.2 = 0 then '?' else '&') :: parameter, state.2 + 1)

/-- The parameters `make_uri` appends, in its order, each only when given. -/
def makeUriParameters (paymentId : List Char) (amount : UInt64)
    (txDescription recipientName : List Char) : List (List Char) :=
  (if paymentId.isEmpty then [] else ["tx_payment_id=".toList ++ paymentId]) ++
  (if amount > 0 then ["tx_amount=".toList ++ printMoney amount] else []) ++
  (if recipientName.isEmpty then []
    else ["recipient_name=".toList ++ converToUrlFormat recipientName]) ++
  (if txDescription.isEmpty then []
    else ["tx_description=".toList ++ converToUrlFormat txDescription])

/-- `strchr(s.c_str(), c)`: the offset of the first `c` before the string's
first zero character. -/
def strchr (s : List Char) (c : Char) : Option Nat :=
  (s.takeWhile (· != '\x00')).idxOf? c

/-- One parameter of the loop of `parse_uri`, with the keys seen so far
(`have_arg`); an unknown key is kept in `unknown_parameters`. -/
def parseUriArgument (info : AddressParseInfo)
    (state : List (List Char) × UriFields) (arg : List Char) :
    Except (List Char) (List (List Char) × UriFields) :=
  let (haveArg, fields) := state
  match arg.splitOn '=' with
  | [key, value] =>
    if key ∈ haveArg
      then .error ("URI has more than one instance of ".toList ++ key)
    else
      let haveArg := key :: haveArg
      if key = "tx_amount".toList then
        match parseAmount value with
        | some amount => .ok (haveArg, { fields with amount })
        | none => .error ("URI has invalid amount: ".toList ++ value)
      else if key = "tx_payment_id".toList then
        if info.hasPaymentId then
          .error "Separate payment id given with an integrated address".toList
        else
          match parsePaymentNote value with
          | some _ => .ok (haveArg, { fields with paymentId := value })
          | none => .error ("Invalid payment id: ".toList ++ value)
      else if key = "recipient_name".toList then
        .ok (haveArg,
          { fields with recipientName := convertFromUrlFormat value })
      else if key = "tx_description".toList then
        .ok (haveArg,
          { fields with txDescription := convertFromUrlFormat value })
      else .ok (haveArg,
        { fields with unknownParameters := fields.unknownParameters ++ [arg] })
  | _ => .error ("URI has wrong parameter: ".toList ++ arg)

section Uri

variable (cnFastHash : List UInt8 → Hash) (checkKey : PublicKey → Bool)

/-- `wallet2::make_uri(address, payment_id, amount, tx_description,
recipient_name, error)`: the URI, or the `error` text where it returns the
empty string. -/
def makeUri (testnet : Bool) (address paymentId : List Char) (amount : UInt64)
    (txDescription recipientName : List Char) :
    Except (List Char) (List Char) :=
  match getAccountAddressFromStr cnFastHash checkKey testnet address with
  | none => .error ("wrong address: ".toList ++ address)
  | some info =>
    -- only one payment id
    if info.hasPaymentId && !paymentId.isEmpty then
      .error "A single payment id is allowed".toList
    else if !paymentId.isEmpty && (parsePaymentNote paymentId).isNone then
      .error "Invalid payment id".toList
    else
      .ok
        ((makeUriParameters paymentId amount txDescription recipientName).foldl
          appendUriField ("citicash:".toList ++ address, 0)).1

/-- What `wallet2::parse_uri` does after the scheme check, on
`remainder = uri.substr(7)`. -/
def parseUriRemainder (testnet : Bool) (remainder : List Char)
    (fields : UriFields) :
    Except (List Char) UriFields :=
  let address :=
    match strchr remainder '?' with
    | some ptr => remainder.take ptr
    | none => remainder
  let fields := { fields with address }
  match getAccountAddressFromStr cnFastHash checkKey testnet address with
  | none => .error ("URI has wrong address: ".toList ++ address)
  | some info =>
    if (strchr remainder '?').isNone then .ok fields
    else
      let body := remainder.drop (address.length + 1)
      if body.isEmpty then .ok fields
      else do
        let (_, fields) ← (body.splitOn '&').foldlM
            (parseUriArgument info) ([], fields)
        pure fields

/-- `wallet2::parse_uri(uri, address, payment_id, amount, tx_description,
recipient_name, unknown_parameters, error)`: the fields, or the `error` text
where it returns false. -/
def parseUri (testnet : Bool) (uri : List Char) (fields : UriFields) :
    Except (List Char) UriFields :=
  if uri.take 7 ≠ "citicash:".toList then
    .error ("URI has wrong scheme (expected \"citicash:\"): ".toList ++ uri)
  else parseUriRemainder cnFastHash checkKey testnet (uri.drop 7) fields

end Uri

/-! ## Payment notes and escaped text -/

/-- `dec_to_hex(num, 16)` writes the byte's two hex digits, high first. -/
theorem decToHex_eq (num : Char) :
    decToHex num =
      [getHexVals.getD (num.toNat % 256 / 16) '0',
        getHexVals.getD (num.toNat % 256 % 16) '0'] := by
  have byte : num.toNat % 256 < 256 := Nat.mod_lt _ (by decide)
  unfold decToHex
  by_cases twoDigits : 16 ≤ num.toNat % 256
  · rw [decToHexLoop, if_pos twoDigits, decToHexLoop, if_neg (by omega)]
    simp
  · -- one digit: the `0` appended after it comes first once reversed
    have small : num.toNat % 256 < 16 := by omega
    rw [decToHexLoop, if_neg twoDigits]
    simp only [List.nil_append, List.length_singleton]
    rw [Nat.div_eq_of_lt small, Nat.mod_eq_of_lt small]
    rfl

/-- Two hex digits of `get_hex_vals()` are read back as their byte. -/
theorem hexToDec2bytes_getHexVals {high low : Nat} (highSmall : high < 16)
    (lowSmall : low < 16) :
    hexToDec2bytes (getHexVals.getD high '0') (getHexVals.getD low '0') =
      [Char.ofNat (high * 16 + low)] := by
  have index : ∀ digit : Fin 16,
      getIndex getHexVals (getHexVals.getD digit '0').toUpper =
        some (digit : Nat) := by
    decide
  have combined : high * 16 ||| low = high * 16 + low := by
    rw [Nat.mul_comm, show 16 = 2 ^ 4 from rfl,
      Nat.two_pow_add_eq_or_of_lt lowSmall]
  rw [hexToDec2bytes, index ⟨high, highSmall⟩, index ⟨low, lowSmall⟩]
  simp only [combined]

theorem convertFromUrlFormat_cons {c : Char} (plain : c ≠ '%')
    (rest : List Char) :
    convertFromUrlFormat (c :: rest) = c :: convertFromUrlFormat rest := by
  match rest with
  | [] => simp [convertFromUrlFormat]
  | [_] => simp [convertFromUrlFormat]
  | _ :: _ :: _ => simp [convertFromUrlFormat, plain]

/-- `convert_from_url_format` undoes `conver_to_url_format` on a string of
bytes. -/
theorem convertFromUrlFormat_converToUrlFormat {text : List Char}
    (bytes : ∀ c ∈ text, c.toNat < 256) :
    convertFromUrlFormat (converToUrlFormat text) = text := by
  induction text with
  | nil => rfl
  | cons c rest ih =>
    have byte : c.toNat < 256 := bytes c List.mem_cons_self
    have restRead :=
      ih fun c' member => bytes c' (List.mem_cons_of_mem _ member)
    simp only [converToUrlFormat, List.flatMap_cons] at restRead ⊢
    by_cases escaped : isUnsafe c
    · rw [if_pos escaped, convert, decToHex_eq, Nat.mod_eq_of_lt byte]
      rw [List.cons_append, List.cons_append, List.cons_append, List.nil_append,
        convertFromUrlFormat,
          hexToDec2bytes_getHexVals (by omega) (Nat.mod_lt _ (by decide)),
        restRead, Nat.div_add_mod', Char.ofNat_toNat]
      rfl
    · -- `%` is unsafe, so a safe character is never read as an escape
      have plain : c ≠ '%' := by
        rintro rfl
        exact escaped (by decide)
      rw [if_neg escaped, List.singleton_append,
        convertFromUrlFormat_cons plain, restRead]

/-- A note with a space, a `%` and a byte above `0x7f`: the three go out
escaped and come back. -/
theorem convertFromUrlFormat_converToUrlFormat_of_note :
    (∀ c ∈ ['a', ' ', '%', '\xe9'], c.toNat < 256) ∧
      converToUrlFormat ['a', ' ', '%', '\xe9'] =
        ['a', '%', '2', '0', '%', '2', '5', '%', 'E', '9'] ∧
      convertFromUrlFormat (converToUrlFormat ['a', ' ', '%', '\xe9']) =
        ['a', ' ', '%', '\xe9'] :=
  ⟨by simp, by decide +kernel, convertFromUrlFormat_converToUrlFormat (by simp)⟩

/-! ## The framing of a URI -/

theorem intercalate_cons (parameter : List Char) (rest : List (List Char)) :
    ['&'].intercalate (parameter :: rest) = parameter ++
      (rest.map ('&' :: ·)).flatten := by
  induction rest generalizing parameter with
  | nil => simp
  | cons next rest ih =>
    rw [List.intercalate_cons_cons, ih]
    simp

theorem foldl_appendUriField_of_count (uri : List Char) (count : Nat)
    (parameters : List (List Char)) :
    (parameters.foldl appendUriField (uri, count + 1)).1 =
      uri ++ (parameters.map ('&' :: ·)).flatten := by
  induction parameters generalizing uri count with
  | nil => simp
  | cons parameter rest ih =>
    rw [List.foldl_cons, appendUriField, if_neg (Nat.succ_ne_zero count)]
    simp [ih]

/-- `make_uri` puts `?` before its first parameter and `&` between the
others. -/
theorem foldl_appendUriField (uri : List Char) {parameters : List (List Char)}
    (nonempty : parameters ≠ []) :
    (parameters.foldl appendUriField (uri, 0)).1 = uri ++ '?' ::
      ['&'].intercalate parameters := by
  obtain ⟨parameter, rest, rfl⟩ := List.exists_cons_of_ne_nil nonempty
  rw [List.foldl_cons, appendUriField, if_pos rfl,
    foldl_appendUriField_of_count, intercalate_cons]
  simp

theorem strchr_append_cons {address : List Char} (plain : '?' ∉ address)
    (noZero : '\x00' ∉ address) (rest : List Char) :
    strchr (address ++ '?' :: rest) '?' = some address.length := by
  have nonzero : ∀ c ∈ address, (c != '\x00') = true := by
    intro c member
    have nonzero : c ≠ '\x00' := fun zero => noZero (zero ▸ member)
    simpa using nonzero
  unfold strchr
  rw [List.takeWhile_append_of_pos nonzero,
    List.takeWhile_cons_of_pos (by decide)]
  exact idxOf?_append_cons plain

/-- An accepted address string has neither a `?` nor a zero character. -/
theorem getAccountAddressFromStr_plain (cnFastHash : List UInt8 → Hash)
    (checkKey : PublicKey → Bool) {testnet : Bool} {address : List Char}
    {info : AddressParseInfo}
    (accepted : getAccountAddressFromStr cnFastHash checkKey testnet
      address = some info) :
    '?' ∉ address ∧ '\x00' ∉ address := by
  have letters := getAccountAddressFromStr_letters cnFastHash checkKey accepted
  have reserved : ∀ c : Char, c = '?' ∨ c = '\x00' →
      ¬(c ∈ Base58.alphabet ∨ (hexDigit c).isSome ∨ isSpace c ∨
        c = '+' ∨ c = '-') := by
    rintro c (rfl | rfl) <;> decide
  exact ⟨fun member => reserved '?' (.inl rfl) (letters '?' member),
    fun member => reserved '\x00' (.inr rfl) (letters '\x00' member)⟩

/-! ## Reading the parameters back -/

section Arguments

variable {info : AddressParseInfo} {haveArg : List (List Char)}
    {fields : UriFields}

end Arguments

section Uri

variable (cnFastHash : List UInt8 → Hash) (checkKey : PublicKey → Bool)

/-- `parse_uri` refuses every URI: seven characters are never the nine of
`citicash:`. -/
theorem parseUri_wrong_scheme (testnet : Bool) (uri : List Char)
    (fields : UriFields) :
    parseUri cnFastHash checkKey testnet uri fields =
      .error
        ("URI has wrong scheme (expected \"citicash:\"): ".toList ++ uri) := by
  have short : (uri.take 7).length ≠ "citicash:".toList.length := by
    rw [List.length_take]
    simp only [show "citicash:".toList.length = 9 by decide]
    omega
  rw [parseUri, if_pos fun same => short (congrArg List.length same)]

variable {testnet : Bool} {address : List Char} {info : AddressParseInfo}
  (accepted : getAccountAddressFromStr cnFastHash checkKey testnet
    address = some info)
include accepted

/-- An accepted address with a query after `?` is read as that address, and the
query's `&`-separated parameters are read one after another. -/
theorem parseUriRemainder_of_query {body : List Char} (nonempty : body ≠ [])
    (fields : UriFields) :
    parseUriRemainder cnFastHash checkKey testnet
      (address ++ '?' :: body) fields =
      (do
        let (_, fields) ← (body.splitOn '&').foldlM (parseUriArgument info)
          ([], { fields with address })
        pure fields) := by
  obtain ⟨plain, noZero⟩ :=
    getAccountAddressFromStr_plain cnFastHash checkKey accepted
  have leftOfMark : (address ++ '?' :: body).take address.length =
      address := by simp
  have rightOfMark :
      (address ++ '?' :: body).drop (address.length + 1) = body := by simp
  simp only [parseUriRemainder, strchr_append_cons plain noZero,
    leftOfMark, accepted, Option.isNone_some, Bool.false_eq_true,
    if_false, rightOfMark,
    List.isEmpty_eq_false_iff.2 nonempty]

/-- `make_uri` writes the scheme, the address and, when there are any, the
parameters after `?` and between `&`. -/
theorem makeUri_eq {paymentId : List Char}
    (single : info.hasPaymentId = true → paymentId = [])
    (paymentIdAccepted : paymentId ≠ [] → (parsePaymentNote paymentId).isSome)
    (amount : UInt64) (txDescription recipientName : List Char) :
    makeUri cnFastHash checkKey testnet address paymentId amount
      txDescription recipientName =
      .ok (if makeUriParameters paymentId amount txDescription
        recipientName = [] then "citicash:".toList ++ address
        else "citicash:".toList ++ address ++
          '?' :: ['&'].intercalate
            (makeUriParameters paymentId amount txDescription
              recipientName)) := by
  have onePaymentId : (info.hasPaymentId && !paymentId.isEmpty) = false := by
    cases integrated : info.hasPaymentId
    · rfl
    · simp [single integrated]
  have validPaymentId :
      (!paymentId.isEmpty && (parsePaymentNote paymentId).isNone) = false := by
    by_cases empty : paymentId = []
    · simp [empty]
    · simp [empty, paymentIdAccepted empty]
  simp only [makeUri, accepted, onePaymentId, validPaymentId,
    Bool.false_eq_true, if_false]
  split
  · rename_i none
    rw [none, List.foldl_nil]
  · rename_i some
    rw [foldl_appendUriField _ some]

end Uri

/-- `parse_uri` refuses the URI `make_uri` writes for the all-zero keys on the
main network, for the wrong scheme; and past the scheme, a recipient name with
an `=`, which `conver_to_url_format` leaves unescaped, is refused as a wrong
parameter. -/
theorem parseUri_refuses_makeUri :
    (let address := getAccountAddressAsStr (fun _ => default)
      false false default
    makeUri (fun _ => default) (fun _ => true) false address [] 0 [] [] =
        .ok ("citicash:".toList ++ address) ∧
      parseUri (fun _ => default) (fun _ => true) false
        ("citicash:".toList ++ address) default =
        .error
          ("URI has wrong scheme (expected \"citicash:\"): citicash:".toList ++
            address) ∧
      makeUri (fun _ => default) (fun _ => true) false address [] 0
        [] "a=b".toList =
        .ok ("citicash:".toList ++ address ++ "?recipient_name=a=b".toList) ∧
      parseUriRemainder (fun _ => default) (fun _ => true) false
          (address ++ "?recipient_name=a=b".toList) default =
        .error "URI has wrong parameter: recipient_name=a=b".toList) := by
  intro address
  have accepted :=
    (@getAccountAddressFromStr_getAccountAddressAsStr (fun _ => default)
    (fun _ => true) default rfl rfl false false).1
  have noParameters : makeUriParameters [] 0 [] [] = [] := by decide
  have nameParameter : makeUriParameters [] 0 [] "a=b".toList =
      ["recipient_name=a=b".toList] := by
    decide
  refine ⟨?_, ?_, ?_, ?_⟩
  · rw [makeUri_eq _ _ accepted (fun _ => rfl) (fun empty => absurd rfl empty),
      if_pos noParameters]
  · rw [parseUri_wrong_scheme, ← List.append_assoc,
      show "URI has wrong scheme (expected \"citicash:\"): ".toList ++
          "citicash:".toList =
        "URI has wrong scheme (expected \"citicash:\"): citicash:".toList
          by decide]
  · rw [makeUri_eq _ _ accepted (fun _ => rfl) (fun empty => absurd rfl empty),
      if_neg (by rw [nameParameter]; simp), nameParameter,
        List.intercalate_singleton]
    rfl
  · rw [show "?recipient_name=a=b".toList = '?' ::
      "recipient_name=a=b".toList by decide,
      parseUriRemainder_of_query _ _ accepted (by decide)]
    rfl

end Wallet
end Citicash
