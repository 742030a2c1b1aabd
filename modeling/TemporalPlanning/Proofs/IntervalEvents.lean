import TemporalPlanning.Proofs.ConditionsInside
import TemporalPlanning.Proofs.Unfoldings

namespace TemporalPlanning

namespace Span

def Cramped (s : Span) (epsilon : Rat) : Prop :=
  s.upper - s.lower < (if s.leftOpen then epsilon else 0) + if s.rightOpen then epsilon else 0

/-- Where an interval is opened and closed in the course of an action of the given duration. -/
structure Sampled (s : Span) (d epsilon opening closing : Rat) : Prop where
  start : 0 ≤ s.lower
  lower : s.lower ≤ opening
  forward : opening ≤ closing
  upper : closing ≤ s.upper
  finish : s.upper ≤ d
  roomy : ¬ s.Cramped epsilon → opening = s.lower + (if s.leftOpen then epsilon else 0) ∧
    closing = s.upper - if s.rightOpen then epsilon else 0
  cramped : s.Cramped epsilon →
    opening = (s.lower + s.upper) / 2 ∧ closing = (s.lower + s.upper) / 2

variable {s : Span} {d epsilon : Rat}

theorem shifted_of_cramped (h : s.Cramped epsilon) :
    s.shifted epsilon = ((s.lower + s.upper) / 2, (s.lower + s.upper) / 2) := by
  have hcrossed : (if s.rightOpen then s.upper - epsilon else s.upper) <
      if s.leftOpen then s.lower + epsilon else s.lower := by
    unfold Cramped at h
    split at h <;> split at h <;> simp_all <;> linarith
  rw [shifted, if_pos hcrossed]

theorem shifted_of_roomy (h : ¬ s.Cramped epsilon) : s.shifted epsilon =
    (s.lower + (if s.leftOpen then epsilon else 0),
      s.upper - if s.rightOpen then epsilon else 0) := by
  have hordered : ¬ (if s.rightOpen then s.upper - epsilon else s.upper) <
      if s.leftOpen then s.lower + epsilon else s.lower := by
    unfold Cramped at h
    split at h <;> split at h <;> simp_all <;> linarith
  rw [shifted, if_neg hordered]
  congr 1
  · split
    · rfl
    · simp
  · split
    · rfl
    · simp

theorem Within.sampled (h : s.Within d) (hε : 0 ≤ epsilon) :
    s.Sampled d epsilon (s.shifted epsilon).1 (s.shifted epsilon).2 := by
  have hleft : (0 : Rat) ≤ if s.leftOpen then epsilon else 0 := by
    split
    · exact hε
    · exact le_rfl
  have hright : (0 : Rat) ≤ if s.rightOpen then epsilon else 0 := by
    split
    · exact hε
    · exact le_rfl
  have hforward := h.forward
  by_cases hroom : s.Cramped epsilon
  · rw [shifted_of_cramped hroom]
    exact ⟨h.lower, by linarith, le_rfl, by linarith, h.upper, fun h => absurd hroom h,
      fun _ => ⟨rfl, rfl⟩⟩
  · have hbetween := not_lt.mp hroom
    rw [shifted_of_roomy hroom]
    exact ⟨h.lower, by linarith, by linarith, by linarith, h.upper, fun _ => ⟨rfl, rfl⟩,
      fun h => absurd h hroom⟩

end Span

def IntervalCondition.span (i : IntervalCondition) : Span :=
  ⟨i.lower, i.upper, i.leftOpen, i.rightOpen⟩

section Pairs

variable {a : Activity} {d : Rat} {es : List Event} {e : Event} {i : IntervalCondition}

theorem Event.opening_or_closing (h : e.interval? = some i) :
    (∃ p, e = .startCondition p i) ∨ ∃ q, e = .endCondition q i := by
  cases e with
  | startAction => simp [interval?] at h
  | startCondition p j =>
      obtain rfl : j = i := by simpa [interval?] using h
      exact .inl ⟨p, rfl⟩
  | endCondition q j =>
      obtain rfl : j = i := by simpa [interval?] using h
      exact .inr ⟨q, rfl⟩
  | endAction => simp [interval?] at h

theorem Unfolds.strictly_sorted (h : Unfolds a d es) : es.Pairwise fun e f => e.key < f.key := by
  have hids : es.Pairwise fun e f => e.id ≠ f.id := List.pairwise_map.mp h.nodup
  refine (h.sorted.and hids).imp ?_
  rintro e f ⟨hle, hne⟩
  exact lt_of_le_of_ne hle fun heq => hne (Event.id_of_key heq)

theorem Unfolds.interval_once (h : Unfolds a d es) (he : e ∈ es) (hi : e.interval? = some i) :
    ∃ front p mid q back,
      es = front ++ .startCondition p i :: (mid ++ .endCondition q i :: back) ∧
      ∀ f ∈ front ++ mid ++ back, f.interval? ≠ some i := by
  obtain ⟨q, hq⟩ : ∃ q, .endCondition q i ∈ es := by
    rcases Event.opening_or_closing hi with ⟨p, rfl⟩ | ⟨q, rfl⟩
    · obtain ⟨q, hq, -⟩ := h.closed p i he
      exact ⟨q, hq⟩
    · exact ⟨q, he⟩
  obtain ⟨before, back, hsplit⟩ := List.append_of_mem hq
  obtain ⟨p, hp⟩ := h.opened_before hsplit
  obtain ⟨front, mid, rfl⟩ := List.append_of_mem hp
  rw [List.append_assoc, List.cons_append] at hsplit
  refine ⟨front, p, mid, q, back, hsplit, ?_⟩
  obtain ⟨n, hn⟩ := h.numbered
  have hperm : es.Perm (.startCondition p i :: .endCondition q i :: (front ++ mid ++ back)) := by
    rw [hsplit]
    refine List.perm_middle.trans (.cons _ ?_)
    rw [← List.append_assoc]
    exact List.perm_middle
  have hnodup := hperm.nodup (List.Nodup.of_map _ h.nodup)
  obtain ⟨hopen, hnodup⟩ := List.nodup_cons.mp hnodup
  obtain ⟨hclose, -⟩ := List.nodup_cons.mp hnodup
  have hp : .startCondition p i ∈ es := hperm.mem_iff.mpr List.mem_cons_self
  -- another event of the interval would have the number of one of the two
  intro f hf hfi
  have hmem : f ∈ es :=
    hperm.mem_iff.mpr (List.mem_cons_of_mem _ (List.mem_cons_of_mem _ hf))
  rcases Event.opening_or_closing hfi with ⟨p', rfl⟩ | ⟨q', rfl⟩
  · have hid : (Event.startCondition p' i).id = (Event.startCondition p i).id :=
      (hn.paired.opening p' i hmem).trans (hn.paired.opening p i hp).symm
    rw [hn.eq_of_id hmem hp hid] at hf
    exact hopen (List.mem_cons_of_mem _ hf)
  · rw [hn.closing_unique hq hmem rfl] at hf
    exact hclose hf

end Pairs

section Events

open Timeline

variable {c : Clock} {activity : Activity} {n : Nat} {spans : List (Span × SpanContent)}
  {d : Rat} {t : Timeline} {p q : Placement} {i : IntervalCondition} {es : List Event}

theorem opening_innerEvents (h : .startCondition p i ∈ innerEvents c activity n spans) :
    i.span ∈ spans.map Prod.fst ∧ p.offset = (i.span.shifted c.epsilon).1 := by
  obtain ⟨m, s, x, hs, he, -⟩ := mem_innerEvents h
  rw [spanEvents_eq] at he
  obtain ⟨rfl, rfl⟩ : p = c.place m activity (s.shifted c.epsilon).1 false ("open" ++ s.label) ∧
      i = spanInterval c activity m s x := by simpa using he
  exact ⟨List.mem_map_of_mem (f := Prod.fst) hs, rfl⟩

theorem closing_innerEvents (h : .endCondition q i ∈ innerEvents c activity n spans) :
    q.offset = (i.span.shifted c.epsilon).2 := by
  obtain ⟨m, s, x, -, he, -⟩ := mem_innerEvents h
  rw [spanEvents_eq] at he
  obtain ⟨rfl, rfl⟩ : q = c.place (m + 1) activity (s.shifted c.epsilon).2 false
      ("close" ++ s.label) ∧ i = spanInterval c activity m s x := by simpa using he
  rfl

theorem Timeline.mem_events_of_interval {e : Event} (he : e ∈ t.events c activity d)
    (hi : e.interval? = some i) : e ∈ innerEvents c activity 1 t.spans.entries := by
  rcases List.mem_cons.mp he with rfl | he
  · simp [Event.interval?] at hi
  · rcases List.mem_append.mp ((List.mergeSort_perm _ _).mem_iff.mp he) with he | he
    · exact he
    · rw [List.mem_singleton.mp he] at hi
      simp [Event.interval?] at hi

theorem Timeline.sampled_events (ht : t.Within d) (hε : 0 ≤ c.epsilon)
    (hp : .startCondition p i ∈ t.events c activity d)
    (hq : .endCondition q i ∈ t.events c activity d) :
    i.span.Sampled d c.epsilon p.offset q.offset := by
  obtain ⟨hs, hopening⟩ := opening_innerEvents (mem_events_of_interval hp rfl)
  rw [hopening, closing_innerEvents (mem_events_of_interval hq rfl)]
  exact (ht i.span hs).sampled hε

theorem Action.events_arranged {a : DurativeAction} (hε : 0 < c.epsilon)
    (h : Action.events c activity (some d) (.durative a) = .ok es) :
    (∃ p b inner q b', es = .startAction p b d (inner ++ [.endAction q b']) ::
      (inner ++ [.endAction q b']) ∧ p.offset = 0 ∧ q.offset = d ∧
      ∀ e ∈ inner, e.kind = .startCondition ∨ e.kind = .endCondition) ∧
    es.Pairwise (fun e f => e.key < f.key) ∧
    ∀ e ∈ es, ∀ i, e.interval? = some i → ∃ front p mid q back,
      es = front ++ .startCondition p i :: (mid ++ .endCondition q i :: back) ∧
      (∀ f ∈ front ++ mid ++ back, f.interval? ≠ some i) ∧
      i.span.Sampled d c.epsilon p.offset q.offset := by
  have hunfolds : Unfolds activity d es := Action.unfolds h hε.le
  refine ⟨?_, hunfolds.strictly_sorted, ?_⟩
  · obtain ⟨p, b, inner, q, b', hwhole, hp, hq, hinner⟩ := hunfolds.whole
    refine ⟨p, b, inner, q, b', hwhole, hp, hq, ?_⟩
    intro e he
    obtain ⟨i, hi⟩ := hinner e he
    rcases Event.opening_or_closing hi with ⟨p, rfl⟩ | ⟨q, rfl⟩
    · exact .inl rfl
    · exact .inr rfl
  · intro e he i hi
    obtain ⟨front, p, mid, q, back, hsplit, honce⟩ := hunfolds.interval_once he hi
    refine ⟨front, p, mid, q, back, hsplit, honce, ?_⟩
    have hp : .startCondition p i ∈ es := by simp [hsplit]
    have hq : .endCondition q i ∈ es := by simp [hsplit]
    rcases Action.events_ok h with ⟨j, hj, -⟩ | ⟨b, d', t, hb, hd, ht, rfl⟩
    · simp at hj
    · obtain rfl : a = b := by simpa using hb
      obtain rfl : d = d' := by simpa using hd
      exact Timeline.sampled_events (within_ofAction ht) hε.le hp hq

end Events

namespace Blink

theorem arranged_blink : 0 < sim.clock.epsilon ∧
    Action.events sim.clock blinking (some 1) (.durative action) = .ok (start :: committed) ∧
    waits.span.Cramped sim.clock.epsilon ∧
    ∃ front p mid q back,
      start :: committed =
        front ++ .startCondition p waits :: (mid ++ .endCondition q waits :: back) ∧
      (∀ f ∈ front ++ mid ++ back, f.interval? ≠ some waits) ∧
      waits.span.Sampled 1 sim.clock.epsilon p.offset q.offset := by
  have hε : 0 < sim.clock.epsilon := by decide
  obtain ⟨-, -, hintervals⟩ := Action.events_arranged hε events_ground
  refine ⟨hε, events_ground, by unfold Span.Cramped; decide +kernel, ?_⟩
  exact hintervals openWaits (by simp [committed]) waits rfl

end Blink

end TemporalPlanning
