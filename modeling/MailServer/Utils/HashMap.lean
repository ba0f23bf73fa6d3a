import Mathlib.Order.Interval.Finset.Nat

/-!
# Maps (`AHashMap`, `BTreeMap`)

Both are Lean's tree map, which is iterated from the least key on: the order of a `BTreeMap`, and one of the orders
a hash map may have.

* `getElem?_insert`, `getElem?_erase`: the operations at a key, with `=` for the comparison.
* `retain`: the entries that a test accepts.
-/

namespace MailServer.Utils

abbrev HashMap (K V : Type*) [Ord K] := Std.TreeMap K V compare

namespace HashMap

variable {K V : Type*} [Ord K]

theorem ofList_concat (l : List (K × V)) (k : K) (v : V) :
    (Std.TreeMap.ofList (l ++ [(k, v)]) compare : HashMap K V) = (Std.TreeMap.ofList l compare).insert k v := by
  simp [Std.TreeMap.ofList_eq_insertMany_empty, Std.TreeMap.insertMany_append]

/-- The entries that a test accepts. -/
def retain (m : HashMap K V) (p : K → V → Bool) : HashMap K V :=
  Std.TreeMap.ofList (m.toList.filter fun e => p e.1 e.2) compare

variable [Std.TransOrd K] [Std.LawfulEqOrd K]

variable {m : HashMap K V} {k : K} {v : V}

theorem mem_toList : (k, v) ∈ m.toList ↔ m[k]? = some v :=
  Std.TreeMap.mem_toList_iff_getElem?_eq_some

theorem nodup_toList (m : HashMap K V) : m.toList.Nodup :=
  m.distinct_keys_toList.imp fun h he => h (Std.LawfulEqOrd.compare_eq_iff_eq.mpr (congrArg Prod.fst he))

theorem nodup_map_fst_toList (m : HashMap K V) : (m.toList.map Prod.fst).Nodup :=
  List.pairwise_map.mpr <| m.distinct_keys_toList.imp fun h he => h (Std.LawfulEqOrd.compare_eq_iff_eq.mpr he)

variable [DecidableEq K]

theorem getElem?_insert {a : K} : (m.insert k v)[a]? = if k = a then some v else m[a]? := by
  simp [Std.TreeMap.getElem?_insert]

theorem getElem?_erase {a : K} : (m.erase k)[a]? = if k = a then none else m[a]? := by
  simp [Std.TreeMap.getElem?_erase]

theorem mem_of_getElem?_ofList {l : List (K × V)}
    (h : (Std.TreeMap.ofList l compare)[k]? = some v) : (k, v) ∈ l := by
  induction l using List.reverseRecOn with
  | nil => simp at h
  | append_singleton l e ih =>
    obtain ⟨k', v'⟩ := e
    rw [ofList_concat, getElem?_insert] at h
    split_ifs at h with hk
    · obtain rfl := Option.some.inj h
      rw [hk]
      exact List.mem_append_right l List.mem_cons_self
    · exact List.mem_append_left _ (ih h)

theorem getElem?_retain {p : K → V → Bool} :
    (m.retain p)[k]? = some v ↔ m[k]? = some v ∧ p k v = true := by
  have hmem : (k, v) ∈ m.toList.filter (fun e => p e.1 e.2) ↔ m[k]? = some v ∧ p k v = true := by
    rw [List.mem_filter, mem_toList]
  rw [← hmem]
  constructor
  · exact mem_of_getElem?_ofList
  · have hdistinct := m.distinct_keys_toList.sublist (List.filter_sublist (p := fun e => p e.1 e.2))
    exact Std.TreeMap.getElem?_ofList_of_mem Std.ReflCmp.compare_self hdistinct

end HashMap

end MailServer.Utils
