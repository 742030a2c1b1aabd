
namespace TemporalPlanning

/-- A finite map whose keys keep the order in which they were first given. -/
structure OrderedMap (κ ν : Type) where
  entries : List (κ × ν)
  nodup : (entries.map Prod.fst).Nodup

namespace OrderedMap

variable {κ ν μ : Type}

def empty : OrderedMap κ ν := ⟨[], List.nodup_nil⟩

instance : Inhabited (OrderedMap κ ν) := ⟨empty⟩

def keys (m : OrderedMap κ ν) : List κ := m.entries.map Prod.fst

def values (m : OrderedMap κ ν) : List ν := m.entries.map Prod.snd

def size (m : OrderedMap κ ν) : Nat := m.entries.length

def isEmpty (m : OrderedMap κ ν) : Bool := m.entries.isEmpty

def mapValues (m : OrderedMap κ ν) (f : ν → μ) : OrderedMap κ μ where
  entries := m.entries.map fun e => (e.1, f e.2)
  nodup := by simpa [Function.comp_def] using m.nodup

variable [DecidableEq κ]

def find (k : κ) : List (κ × ν) → Option ν
  | [] => none
  | e :: es => if e.1 = k then some e.2 else find k es

def replace (k : κ) (v : ν) : List (κ × ν) → List (κ × ν)
  | [] => [(k, v)]
  | e :: es => if e.1 = k then (k, v) :: es else e :: replace k v es

theorem find_eq_none_iff {k : κ} {es : List (κ × ν)} :
    find k es = none ↔ k ∉ es.map Prod.fst := by
  induction es with
  | nil => simp [find]
  | cons e es ih =>
      by_cases h : e.1 = k
      · simp [find, h]
      · simp [find, h, ih, Ne.symm h]

theorem find_replace (j k : κ) (v : ν) (es : List (κ × ν)) :
    find j (replace k v es) = if j = k then some v else find j es := by
  induction es with
  | nil => by_cases h : j = k <;> simp [replace, find, h, eq_comm]
  | cons e es ih =>
      by_cases h : e.1 = k
      · by_cases hj : j = k
        · simp [replace, find, h, hj]
        · simp [replace, find, h, hj, Ne.symm hj]
      · by_cases hj : e.1 = j
        · have : j ≠ k := hj ▸ h
          simp [replace, find, hj, this]
        · simp [replace, find, h, hj, ih]

theorem keys_replace (k : κ) (v : ν) (es : List (κ × ν)) :
    (replace k v es).map Prod.fst =
      if k ∈ es.map Prod.fst then es.map Prod.fst else es.map Prod.fst ++ [k] := by
  induction es with
  | nil => simp [replace]
  | cons e es ih =>
      by_cases h : e.1 = k
      · simp [replace, h]
      · by_cases hk : k ∈ es.map Prod.fst
        · simp [replace, h, ih, hk]
        · simp [replace, h, ih, hk, Ne.symm h]

theorem mem_iff_find {k : κ} {v : ν} {es : List (κ × ν)} (h : (es.map Prod.fst).Nodup) :
    (k, v) ∈ es ↔ find k es = some v := by
  induction es with
  | nil => simp [find]
  | cons e es ih =>
      obtain ⟨hn, hes⟩ := List.nodup_cons.mp h
      by_cases hk : e.1 = k
      · subst hk
        constructor
        · intro hm
          rcases List.mem_cons.mp hm with hm | hm
          · rw [← hm]
            simp [find]
          · exact absurd (List.mem_map_of_mem (f := Prod.fst) hm) hn
        · intro hf
          have : e.2 = v := by simpa [find] using hf
          exact this ▸ List.mem_cons_self
      · have : (k, v) ≠ e := fun he => hk (by rw [← he])
        simp [find, hk, ih hes, this]

def get? (m : OrderedMap κ ν) (k : κ) : Option ν := find k m.entries

def contains (m : OrderedMap κ ν) (k : κ) : Bool := (m.get? k).isSome

def put (m : OrderedMap κ ν) (k : κ) (v : ν) : OrderedMap κ ν where
  entries := replace k v m.entries
  nodup := by
    rw [keys_replace]
    split
    · exact m.nodup
    · rename_i h
      exact List.nodup_append.mpr ⟨m.nodup, by simp, fun a ha b hb hab =>
        h (List.mem_singleton.mp hb ▸ hab ▸ ha)⟩

def erase (m : OrderedMap κ ν) (k : κ) : OrderedMap κ ν where
  entries := m.entries.filter fun e => !decide (e.1 = k)
  nodup := m.nodup.sublist (List.filter_sublist.map Prod.fst)

def putAll (m : OrderedMap κ ν) (es : List (κ × ν)) : OrderedMap κ ν :=
  es.foldl (fun m e => m.put e.1 e.2) m

def ofList (es : List (κ × ν)) : OrderedMap κ ν := empty.putAll es

@[simp] theorem get?_empty (k : κ) : (empty : OrderedMap κ ν).get? k = none := rfl

@[simp] theorem get?_put (m : OrderedMap κ ν) (j k : κ) (v : ν) :
    (m.put k v).get? j = if j = k then some v else m.get? j :=
  find_replace j k v m.entries

theorem keys_put (m : OrderedMap κ ν) (k : κ) (v : ν) :
    (m.put k v).keys = if k ∈ m.keys then m.keys else m.keys ++ [k] :=
  keys_replace k v m.entries

theorem mem_entries_iff {m : OrderedMap κ ν} {k : κ} {v : ν} :
    (k, v) ∈ m.entries ↔ m.get? k = some v :=
  mem_iff_find m.nodup

theorem get?_eq_none_iff {m : OrderedMap κ ν} {k : κ} : m.get? k = none ↔ k ∉ m.keys :=
  find_eq_none_iff

theorem find_filter (j k : κ) (es : List (κ × ν)) :
    find j (es.filter fun e => !decide (e.1 = k)) = if j = k then none else find j es := by
  induction es with
  | nil => simp [find]
  | cons e es ih =>
      by_cases h : e.1 = k
      · by_cases hj : j = k
        · simpa [h, hj] using ih
        · simpa [h, hj, find, Ne.symm hj] using ih
      · by_cases hj : e.1 = j
        · have : j ≠ k := hj ▸ h
          simp [find, hj, this]
        · simpa [h, find, hj] using ih

@[simp] theorem get?_erase (m : OrderedMap κ ν) (j k : κ) :
    (m.erase k).get? j = if j = k then none else m.get? j :=
  find_filter j k m.entries

theorem find_map (k : κ) (f : ν → μ) (es : List (κ × ν)) :
    find k (es.map fun e => (e.1, f e.2)) = (find k es).map f := by
  induction es with
  | nil => rfl
  | cons e es ih =>
      simp only [List.map_cons, find, ih]
      split <;> rfl

theorem get?_mapValues (m : OrderedMap κ ν) (f : ν → μ) (k : κ) :
    (m.mapValues f).get? k = (m.get? k).map f :=
  find_map k f m.entries

end OrderedMap

end TemporalPlanning
