import MailServer.Utils.HashMap

/-!
# Writes to a map

* `HashMap.put`: a value for a key, or none.  `HashMap.putAll`: one write after the other.
* `getElem?_putAll_of_mem`, `getElem?_putAll_of_notMem`: what is there after writes of different keys.
-/

namespace MailServer.Utils.HashMap

variable {K V : Type*} [Ord K] [DecidableEq K]

/-- One write: `none` for a value that goes. -/
def put (m : HashMap K V) : K × Option V → HashMap K V
  | (k, some v) => m.insert k v
  | (k, none) => m.erase k

def putAll (m : HashMap K V) (writes : List (K × Option V)) : HashMap K V := writes.foldl put m

variable [Std.TransOrd K] [Std.LawfulEqOrd K] {m : HashMap K V} {writes : List (K × Option V)} {k : K}

theorem getElem?_put (m : HashMap K V) (w : K × Option V) (k : K) : (m.put w)[k]? = if w.1 = k then w.2 else m[k]? := by
  obtain ⟨wk, v⟩ := w
  cases v with
  | none => exact getElem?_erase
  | some v => exact getElem?_insert

theorem getElem?_putAll_of_notMem (h : k ∉ writes.map Prod.fst) : (m.putAll writes)[k]? = m[k]? := by
  induction writes generalizing m with
  | nil => rfl
  | cons w writes ih =>
    rw [List.map_cons, List.mem_cons, not_or] at h
    show (putAll _ writes)[k]? = _
    rw [ih h.2, getElem?_put, if_neg (Ne.symm h.1)]

theorem getElem?_putAll_of_mem (hnodup : (writes.map Prod.fst).Nodup) {w : K × Option V} (hw : w ∈ writes) :
    (m.putAll writes)[w.1]? = w.2 := by
  induction writes generalizing m with
  | nil => cases hw
  | cons v writes ih =>
    rw [List.map_cons, List.nodup_cons] at hnodup
    show (putAll _ writes)[w.1]? = _
    rcases List.mem_cons.mp hw with rfl | hw
    · rw [getElem?_putAll_of_notMem hnodup.1, getElem?_put, if_pos rfl]
    · exact ih hnodup.2 hw

theorem getElem?_putAll_congr {m' : HashMap K V} (h : ∀ k : K, m[k]? = m'[k]?) (k : K) :
    (m.putAll writes)[k]? = (m'.putAll writes)[k]? := by
  induction writes generalizing m m' with
  | nil => exact h k
  | cons w writes ih =>
    refine ih fun k => ?_
    rw [getElem?_put, getElem?_put, h k]

end MailServer.Utils.HashMap
