import Mathlib.Data.List.Perm.Basic

/-!
# Append-only keyed tables

A table kept in key order whose puts may only go past its last key, as a
B-tree store keeps a table written with an append flag: a put under a key
that is not above every stored key is refused, a read returns the first entry
under a key and a delete removes that entry.

The lemmas say what happens to the values of a table, read through any
function `f` of them, under a put and a delete; a store that derives a set
from its rows (the key images of stored transactions, say) uses them to
follow that set.
-/

namespace Citicash
namespace AppendTable

variable {κ α β : Type}

/-- A put with the append flag: refused (`none`) unless the key is above
every stored key. -/
def append [LT κ] [DecidableRel (α := κ) (· < ·)]
    (table : List (κ × α)) (key : κ) (value : α) : Option (List (κ × α)) :=
  if table.all fun entry => decide (entry.1 < key)
    then some (table ++ [(key, value)])
  else none

/-- The value under a key. -/
def get [DecidableEq κ] (table : List (κ × α)) (key : κ) : Option α :=
  (table.find? fun entry => entry.1 = key).map Prod.snd

/-- Delete the entry under a key. -/
def delete [DecidableEq κ] (table : List (κ × α)) (key : κ) : List (κ × α) :=
  table.eraseP fun entry => entry.1 = key

/-- Everything `f` reads off the values of a table, in table order. -/
def collect (f : α → List β) (table : List (κ × α)) : List β :=
  table.flatMap fun entry => f entry.2

@[simp] theorem collect_nil (f : α → List β) :
    collect f ([] : List (κ × α)) = [] := rfl

@[simp] theorem collect_append (f : α → List β) (first second : List (κ × α)) :
    collect f (first ++ second) = collect f first ++ collect f second := by
  simp [collect]

@[simp] theorem collect_cons (f : α → List β) (entry : κ × α)
    (table : List (κ × α)) :
    collect f (entry :: table) = f entry.2 ++ collect f table := by
  simp [collect]

theorem append_eq_some [LT κ] [DecidableRel (α := κ) (· < ·)]
    {table table' : List (κ × α)} {key : κ} {value : α}
    (appended : append table key value = some table') :
    table' = table ++ [(key, value)] := by
  unfold append at appended
  split at appended
  · exact (Option.some.inj appended).symm
  · cases appended

/-- A table splits around the entry a read finds, and the delete removes
exactly that entry. -/
theorem split_of_get [DecidableEq κ] {table : List (κ × α)}
    {key : κ} {value : α} (found : get table key = some value) :
    ∃ before after, table = before ++ (key, value) :: after ∧
      delete table key = before ++ after := by
  unfold get at found
  obtain ⟨entry, findEntry, rfl⟩ := Option.map_eq_some_iff.mp found
  have entryKey : entry.1 = key := by
    simpa using List.find?_some findEntry
  obtain ⟨first, before, after, noEarlier, firstMatches,
    tableSplit, deleteSplit⟩ :
      ∃ first before after, (∀ other ∈ before, ¬decide (other.1 = key) = true) ∧
        decide (first.1 = key) = true ∧ table = before ++ first :: after ∧
        table.eraseP (fun entry => decide (entry.1 = key)) = before ++ after :=
    List.exists_of_eraseP (List.mem_of_find?_eq_some findEntry)
      (by simpa using entryKey)
  have firstIsEntry : first = entry := by
    have findFirst : table.find? (fun entry => decide (entry.1 = key)) =
        some first := by
      rw [tableSplit, List.find?_append,
        List.find?_eq_none.mpr (by simpa using noEarlier)]
      simp [show first.1 = key by simpa using firstMatches]
    exact Option.some.inj (findFirst.symm.trans findEntry)
  subst firstIsEntry
  refine ⟨before, after, ?_, deleteSplit⟩
  rw [tableSplit, ← entryKey]

/-- Deleting a found entry removes its values from what `f` collects, the
rest keeping their order. -/
theorem collect_delete_of_get [DecidableEq κ] (f : α → List β)
    {table : List (κ × α)} {key : κ} {value : α}
    (found : get table key = some value) :
    ∃ before after, collect f table = before ++ f value ++ after ∧
      collect f (delete table key) = before ++ after := by
  obtain ⟨tableBefore, tableAfter, tableSplit, deleteSplit⟩ :=
    split_of_get found
  refine ⟨collect f tableBefore, collect f tableAfter, ?_, ?_⟩
  · rw [tableSplit]
    simp
  · rw [deleteSplit, collect_append]

/-! ## Tables keyed by positions

A table whose keys are `0, 1, …, n - 1` in order, as a table appended at its
own length is, reads like the list of its values. -/

theorem get_of_keys_range' {table : List (Nat × α)} {start count : Nat}
    (keys : table.map Prod.fst = List.range' start count) (k : Nat) :
    get table (start + k) = (table.map Prod.snd)[k]? := by
  induction table generalizing start count k with
  | nil => rfl
  | cons entry rest ih =>
      obtain ⟨count, rfl⟩ : ∃ rest, count = rest + 1 :=
        ⟨count - 1, by cases count <;> simp_all⟩
      simp only [List.map_cons, List.range'_succ, List.cons.injEq] at keys
      obtain ⟨entryKey, restKeys⟩ := keys
      cases k with
      | zero => simp [get, entryKey]
      | succ k =>
          have later : get rest (start + 1 + k) =
              (rest.map Prod.snd)[k]? := ih restKeys k
          simp only [get, List.find?_cons, entryKey] at later ⊢
          rw [show start + 1 + k = start + (k + 1) by omega] at later
          simp [later]

/-- The value under a key is the value at that position. -/
theorem get_of_keys_range {table : List (Nat × α)} {n : Nat}
    (keys : table.map Prod.fst = List.range n) (k : Nat) :
    get table k = (table.map Prod.snd)[k]? := by
  rw [List.range_eq_range'] at keys
  simpa using get_of_keys_range' keys k

/-- Deleting the last position removes the last entry. -/
theorem delete_of_keys_range {table : List (Nat × α)} {n : Nat}
    (keys : table.map Prod.fst = List.range (n + 1)) :
    delete table n = table.dropLast := by
  rw [List.range_succ] at keys
  obtain ⟨before, last, rfl, beforeKeys, lastKeys⟩ :=
    List.map_eq_append_iff.mp keys
  obtain ⟨entry, rfl, entryKey⟩ := List.map_eq_singleton_iff.mp lastKeys
  have noEarlier : ∀ other ∈ before, ¬decide (other.1 = n) = true := by
    intro other mem
    have listed : other.1 ∈ List.range n := beforeKeys ▸ List.mem_map_of_mem mem
    simpa using Nat.ne_of_lt (List.mem_range.mp listed)
  rw [delete, List.eraseP_append_right _ noEarlier]
  simp [entryKey]

end AppendTable
end Citicash
