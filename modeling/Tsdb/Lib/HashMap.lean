/-
Hash maps as association lists without duplicate keys: Mathlib's `AList`
at a constant value type, with the few derived operations a hash map
offers beyond lookup, insertion and removal.

The order of the entries stands for the iteration order of the map. A
fact that must not depend on it is stated through `mem_values` and
`mem_toPairs`, which speak of lookups only, or for every permutation of
the pairs; a definition that iterates goes over `values` or `toPairs`, so
that its dependence on the order is in the open.

Lookups behind an insertion or a removal are decided by the key alone
(`lookup_insert_if`, `lookup_erase_if`); these two are stated with `if`
and no side condition, so that a proof splits on the keys it has in hand.
-/
import Mathlib.Data.List.AList

namespace Lib

/-- A finite map from `K` to `V`. -/
abbrev HashMap (K V : Type) := AList (fun _ : K => V)

namespace HashMap

variable {K V : Type}

/-- The values, in iteration order. -/
def values (m : HashMap K V) : List V := m.entries.map Sigma.snd

/-- The pairs, in iteration order. -/
def toPairs (m : HashMap K V) : List (K × V) :=
  m.entries.map fun e => (e.1, e.2)

variable [DecidableEq K]

theorem lookup_insert_if (m : HashMap K V) (k k' : K) (v : V) :
    (m.insert k v).lookup k' = if k' = k then some v else m.lookup k' := by
  by_cases h : k' = k
  · subst h
    rw [if_pos rfl, AList.lookup_insert]
  · rw [if_neg h, AList.lookup_insert_ne h]

theorem lookup_erase_if (m : HashMap K V) (k k' : K) :
    (m.erase k).lookup k' = if k' = k then none else m.lookup k' := by
  by_cases h : k' = k
  · subst h
    rw [if_pos rfl, AList.lookup_erase]
  · rw [if_neg h, AList.lookup_erase_ne h]

theorem mem_values {m : HashMap K V} {v : V} :
    v ∈ m.values ↔ ∃ k, m.lookup k = some v := by
  constructor
  · intro h
    obtain ⟨⟨k, v'⟩, he, rfl⟩ := List.mem_map.mp h
    exact ⟨k, AList.mem_lookup_iff.mpr he⟩
  · rintro ⟨k, hk⟩
    exact List.mem_map.mpr ⟨⟨k, v⟩, AList.mem_lookup_iff.mp hk, rfl⟩

theorem mem_toPairs {m : HashMap K V} {k : K} {v : V} :
    (k, v) ∈ m.toPairs ↔ m.lookup k = some v := by
  constructor
  · intro h
    obtain ⟨⟨k', v'⟩, he, heq⟩ := List.mem_map.mp h
    cases heq
    exact AList.mem_lookup_iff.mpr he
  · intro h
    exact List.mem_map.mpr ⟨⟨k, v⟩, AList.mem_lookup_iff.mp h, rfl⟩

omit [DecidableEq K] in
theorem nodup_toPairs_fst (m : HashMap K V) :
    (m.toPairs.map Prod.fst).Nodup := by
  have h : m.toPairs.map Prod.fst = m.keys := by
    rw [toPairs, List.map_map]
    rfl
  rw [h]
  exact m.keys_nodup

theorem lookup_eq_find? (m : HashMap K V) (k : K) :
    m.lookup k = (m.toPairs.find? (·.1 = k)).map Prod.snd := by
  cases hfind : m.toPairs.find? (·.1 = k) with
  | none =>
      cases hlookup : m.lookup k with
      | none => rfl
      | some v =>
          have hnone := List.find?_eq_none.mp hfind _ (mem_toPairs.mpr hlookup)
          exact absurd (decide_eq_true rfl) hnone
  | some e =>
      have hkey : e.1 = k := of_decide_eq_true
        (List.find?_some (p := fun e : K × V => decide (e.1 = k)) hfind)
      rw [← hkey]
      exact mem_toPairs.mp (List.mem_of_find?_eq_some hfind)

end HashMap

end Lib
