import Citicash.Basic.Types

/-!
# Difficulty, proof of work and block reward

The arithmetic the chain's consensus rules rest on: epee's `median`,
`check_hash` and `next_difficulty` of `cryptonote_core/difficulty.cpp`, and
`get_block_reward` of `cryptonote_core/cryptonote_basic_impl.cpp`.  Every
`uint64_t` is a `UInt64`, so each sum and difference wraps as in the source.

Two pieces are not computed here.  `get_block_reward` evaluates its first
emission stages in `double`; the value `(uint64_t)(MONEY_SUPPLY *
money_supply_pct)` for each stage is a parameter.  `mul` is the x86-64
`mul128`, the exact 128-bit product; the hash words are read on a
little-endian host, where `swap64le` is the identity.
-/

namespace Citicash
namespace CryptonoteCore

open Cryptonote

/-! ## epee's median -/

/-- `epee::misc_utils::median`: zero for no values, the middle value of an
odd count, the halved sum of the two middle values of an even one. -/
def median (v : List UInt64) : UInt64 :=
  match v with
  | [] => 0
  | [only] => only
  | _ =>
      let n := v.length / 2
      let sorted := v.mergeSort
      if v.length % 2 = 1 then sorted.getD n 0
      else (sorted.getD (n - 1) 0 + sorted.getD n 0) / 2

/-! ## Proof of work -/

/-- `DIFFICULTY_TARGET`, `DIFFICULTY_WINDOW`, `DIFFICULTY_CUT` and
`DIFFICULTY_BLOCKS_COUNT`. -/
def difficultyTarget : Nat := 60
def difficultyWindow : Nat := 17
def difficultyCut : Nat := 6
def difficultyBlocksCount : Nat := difficultyWindow + difficultyCut * 2

/-- `MAX_AVERAGE_TIMESPAN` and `MIN_AVERAGE_TIMESPAN`. -/
def maxAverageTimespan : UInt64 := 60 * 6
def minAverageTimespan : UInt64 := 60 / 24

/-- `mul`: the 128-bit product, low word first. -/
def mul (a b : UInt64) : UInt64 × UInt64 :=
  let product := a.toNat * b.toNat
  (UInt64.ofNat product, UInt64.ofNat (product / 2 ^ 64))

/-- `cadd`: the carry out of `a + b`. -/
def cadd (a b : UInt64) : Bool := a + b < a

/-- `cadc`: the carry out of `a + b + c`. -/
def cadc (a b : UInt64) (c : Bool) : Bool :=
  a + b < a || (c && a + b == UInt64.ofNat (2 ^ 64 - 1))

/-- `((const uint64_t *)&hash)[i]`: the `i`-th eight bytes, little-endian. -/
def hashWord (hash : Hash) (i : Nat) : UInt64 :=
  ((hash.bytes.toList.drop (8 * i)).take 8).foldr
    (fun byte word => byte.toUInt64 + 256 * word) 0

/-- `check_hash`: the hash, read as a 256-bit little-endian number, times the
difficulty stays below `2^256`; the top word first, then the carries. -/
def checkHash (hash : Hash) (difficulty : UInt64) : Bool :=
  let (top, high) := mul (hashWord hash 3) difficulty
  if high ≠ 0 then false
  else
    -- the low word of the lowest product cannot carry and is dropped
    let (_, cur) := mul (hashWord hash 0) difficulty
    let (low₁, high₁) := mul (hashWord hash 1) difficulty
    let carry := cadd cur low₁
    let cur := high₁
    let (low₂, high₂) := mul (hashWord hash 2) difficulty
    let carry := cadc cur low₂ carry
    let carry := cadc high₂ top carry
    !carry

/-- `std::vector::resize`: cut to `n` entries or pad with zeros. -/
def resize (n : Nat) (v : List UInt64) : List UInt64 :=
  v.take n ++ List.replicate (n - v.length) 0

/-- The spans between neighbouring sorted timestamps from position `start`
on, a zero span counted as one. -/
def timeSpans (sorted : List UInt64) (start : Nat) : List UInt64 :=
  (List.range (sorted.length - 1 - start)).map fun k =>
    let span := sorted.getD (start + k + 1) 0 - sorted.getD (start + k) 0
    if span = 0 then 1 else span

/-- `next_difficulty`: from the last timestamps and cumulative difficulties,
cut the outliers of the sorted timestamps, blend the mean and the median
block time, and divide the work done by the adjusted time span, rounding
up.  `0` when the work times the target overflows. -/
def nextDifficulty (timestamps cumulativeDifficulties : List UInt64)
    (targetSeconds : Nat) : UInt64 :=
  let (timestamps, cumulativeDifficulties) :=
    if difficultyBlocksCount < timestamps.length then
      (resize difficultyBlocksCount timestamps,
        resize difficultyBlocksCount cumulativeDifficulties)
    else (timestamps, cumulativeDifficulties)
  let length := timestamps.length
  if length ≤ 1 then 1
  else
    let sorted := timestamps.mergeSort
    let kept := difficultyBlocksCount - 2 * difficultyCut
    let (cutBegin, cutEnd) :=
      if length ≤ kept then (0, length)
      else ((length - kept + 1) / 2, (length - kept + 1) / 2 + kept)
    let totalTimespan := sorted.getD (cutEnd - 1) 0 - sorted.getD cutBegin 0
    let totalTimespan := if totalTimespan = 0 then 1 else totalTimespan
    let timespanMedian :=
      if 0 < cutBegin ∧ cutBegin * 2 + 3 ≤ length then
        median (timeSpans sorted (length - cutBegin * 2 - 3))
      else 0
    let timespanLength := UInt64.ofNat (length - cutBegin * 2 - 1)
    let totalTimespanMedian :=
      if 0 < timespanMedian then timespanMedian * timespanLength
        else totalTimespan * 7 / 10
    let adjusted := (totalTimespan * 8 + totalTimespanMedian * 3) / 10
    let adjusted := if maxAverageTimespan * timespanLength < adjusted then
      maxAverageTimespan * timespanLength else adjusted
    let adjusted := if adjusted < minAverageTimespan * timespanLength then
      minAverageTimespan * timespanLength else adjusted
    let totalWork :=
      cumulativeDifficulties.getD (cutEnd - 1) 0 -
        cumulativeDifficulties.getD cutBegin 0
    let (low, high) := mul totalWork (UInt64.ofNat targetSeconds)
    if high ≠ 0 then 0
    else
      let nextDiff := (low + adjusted - 1) / max adjusted 1
      if nextDiff < 1 then 1 else nextDiff

/-! ## Block reward -/

/-- `MONEY_SUPPLY`, `EMISSION_SPEED_FACTOR`, `FINAL_SUBSIDY`,
`GENESIS_BLOCK_REWARD`. -/
def moneySupply : UInt64 := 1000000000000000000
def emissionSpeedFactor : UInt64 := 21
def finalSubsidy : UInt64 := 4000000000
def genesisBlockReward : UInt64 := 135000000000000000

/-- `COIN_EMISSION_HEIGHT_INTERVAL` (six months of one-minute blocks) and
`PEAK_COIN_EMISSION_HEIGHT` (four years). -/
def coinEmissionHeightInterval : Nat := 262980
def peakCoinEmissionHeight : Nat := 2103840

/-- `MAX_BLOCK_SIZE_NOT_CHECKED`. -/
def maxBlockSizeNotChecked : UInt64 := 5 * 1024 * 1024

/-- `get_block_reward(median_size, current_block_size,
already_generated_coins, reward, height)`: `none` for a block too large for
the median, else the base reward.  `earlyEmission k` is the `double`
computation `(uint64_t)(MONEY_SUPPLY * money_supply_pct)` of stage `k`. -/
def getBlockReward (earlyEmission : Nat → UInt64)
    (medianSize currentBlockSize : UInt64) (alreadyGeneratedCoins : UInt64)
    (height : Nat) : Option UInt64 :=
  let baseReward :=
    if 1 < height then
      if height < peakCoinEmissionHeight + coinEmissionHeightInterval then
        earlyEmission (height / coinEmissionHeightInterval) >>>
          emissionSpeedFactor
      else (moneySupply - alreadyGeneratedCoins) >>> emissionSpeedFactor
    else genesisBlockReward
  let baseReward :=
    if baseReward < finalSubsidy then
      if alreadyGeneratedCoins < moneySupply then finalSubsidy
        else finalSubsidy / 2
    else baseReward
  let roundFactor : UInt64 := 10000000
  let baseReward := baseReward / roundFactor * roundFactor
  if max (2 * medianSize) maxBlockSizeNotChecked < currentBlockSize then none
  else some baseReward

end CryptonoteCore
end Citicash
