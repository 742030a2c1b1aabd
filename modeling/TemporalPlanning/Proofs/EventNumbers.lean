import Mathlib.Data.List.Nodup
import TemporalPlanning.Execution.Event

namespace TemporalPlanning

structure Paired (es : List Event) : Prop where
  opening : ∀ p i, .startCondition p i ∈ es → p.id = i.id
  closing : ∀ q i, .endCondition q i ∈ es → q.id = i.id + 1
  opened : ∀ q i, .endCondition q i ∈ es → ∃ p, .startCondition p i ∈ es

structure Numbered (lo : Nat) (es : List Event) : Prop where
  ids : (es.map Event.id).Perm (List.range' lo es.length)
  paired : Paired es

theorem Paired.append {xs ys : List Event} (hx : Paired xs) (hy : Paired ys) :
    Paired (xs ++ ys) where
  opening p i hp := (List.mem_append.mp hp).elim (hx.opening p i) (hy.opening p i)
  closing q i hq := (List.mem_append.mp hq).elim (hx.closing q i) (hy.closing q i)
  opened q i hq := by
    rcases List.mem_append.mp hq with hq | hq
    · obtain ⟨p, hp⟩ := hx.opened q i hq
      exact ⟨p, List.mem_append_left _ hp⟩
    · obtain ⟨p, hp⟩ := hy.opened q i hq
      exact ⟨p, List.mem_append_right _ hp⟩

theorem Paired.of_perm {xs ys : List Event} (h : Paired xs) (hp : xs.Perm ys) : Paired ys where
  opening p i hi := h.opening p i (hp.mem_iff.mpr hi)
  closing q i hi := h.closing q i (hp.mem_iff.mpr hi)
  opened q i hi := by
    obtain ⟨p, hi⟩ := h.opened q i (hp.mem_iff.mpr hi)
    exact ⟨p, hp.mem_iff.mp hi⟩

namespace Numbered

variable {lo : Nat} {es xs ys : List Event} {e f : Event}

theorem nil (lo : Nat) : Numbered lo [] := ⟨.nil, by simp, by simp, by simp⟩

theorem singleton (hid : e.id = lo) (he : e.interval? = none) : Numbered lo [e] := by
  refine ⟨by rw [← hid]; exact .refl _, ?_, ?_, ?_⟩
  · rintro p i hp
    rw [← List.mem_singleton.mp hp] at he
    simp [Event.interval?] at he
  · rintro q i hq
    rw [← List.mem_singleton.mp hq] at he
    simp [Event.interval?] at he
  · rintro q i hq
    rw [← List.mem_singleton.mp hq] at he
    simp [Event.interval?] at he

theorem pair {p q : Placement} {i : IntervalCondition} (hp : p.id = i.id) (hq : q.id = i.id + 1) :
    Numbered i.id [.startCondition p i, .endCondition q i] where
  ids := by
    have hids : [Event.startCondition p i, .endCondition q i].map Event.id = [i.id, i.id + 1] := by
      rw [← hq, ← hp]
      rfl
    rw [hids]
    exact .refl _
  paired := by
    refine ⟨fun p' j hj => ?_, fun q' j hj => ?_, fun q' j hj => ?_⟩
    · obtain ⟨rfl, rfl⟩ : p' = p ∧ j = i := by simpa using hj
      exact hp
    · obtain ⟨rfl, rfl⟩ : q' = q ∧ j = i := by simpa using hj
      exact hq
    · obtain ⟨rfl, rfl⟩ : q' = q ∧ j = i := by simpa using hj
      exact ⟨p, by simp⟩

theorem append (hx : Numbered lo xs) (hy : Numbered (lo + xs.length) ys) :
    Numbered lo (xs ++ ys) where
  ids := by
    rw [List.map_append, List.length_append, List.range'_append_1.symm]
    exact hx.ids.append hy.ids
  paired := hx.paired.append hy.paired

theorem of_perm (h : Numbered lo xs) (hp : xs.Perm ys) : Numbered lo ys where
  ids := by
    rw [← hp.length_eq]
    exact (hp.map Event.id).symm.trans h.ids
  paired := h.paired.of_perm hp

theorem nodup (h : Numbered lo es) : (es.map Event.id).Nodup :=
  h.ids.nodup_iff.mpr List.nodup_range'

theorem le_id (h : Numbered lo es) (he : e ∈ es) : lo ≤ e.id := by
  have hmem := h.ids.mem_iff.mp (List.mem_map_of_mem he)
  exact (List.mem_range'_1.mp hmem).1

theorem eq_of_id (h : Numbered lo es) (he : e ∈ es) (hf : f ∈ es) (hid : e.id = f.id) : e = f :=
  List.inj_on_of_nodup_map h.nodup he hf hid

theorem find_id (h : Numbered lo es) (he : e ∈ es) : es.find? (fun o => o.id = e.id) = some e := by
  cases hf : es.find? (fun o => o.id = e.id) with
  | none =>
      have hnone := List.find?_eq_none.mp hf _ he
      simp at hnone
  | some o =>
      have ho : o.id = e.id := by simpa using List.find?_some hf
      rw [h.eq_of_id (List.mem_of_find?_eq_some hf) he ho]

theorem find_opening (h : Numbered lo es) {p : Placement} {i : IntervalCondition}
    (hp : .startCondition p i ∈ es) :
    es.find? (fun o => o.id = i.id) = some (.startCondition p i) :=
  h.paired.opening p i hp ▸ h.find_id hp

theorem closing_unique (h : Numbered lo es) {q q' : Placement} {i j : IntervalCondition}
    (hq : .endCondition q i ∈ es) (hj : .endCondition q' j ∈ es) (hid : j.id = i.id) :
    Event.endCondition q' j = .endCondition q i := by
  have hqid : q.id = i.id + 1 := h.paired.closing q i hq
  have hjid : q'.id = j.id + 1 := h.paired.closing q' j hj
  exact h.eq_of_id hj hq (show q'.id = q.id by omega)

end Numbered

end TemporalPlanning
