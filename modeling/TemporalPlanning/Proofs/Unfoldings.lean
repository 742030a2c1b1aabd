import Mathlib.Data.Prod.Lex
import Mathlib.Tactic.Linarith
import TemporalPlanning.Proofs.ActivityEvents

namespace TemporalPlanning

namespace Event

def key (e : Event) : Rat ×ₗ Nat ×ₗ Nat := toLex (e.offset, toLex (e.kind.rank, e.id))

theorem compare_iff {a b : Event} : compare a b ≤ 0 ↔ a.key ≤ b.key := by
  simp only [compare, key, Prod.Lex.toLex_le_toLex]
  rcases lt_trichotomy a.offset b.offset with h | h | h
  · simp [h]
  · by_cases hr : a.kind.rank = b.kind.rank
    · simp [h, hr]
    · simp only [h, lt_irrefl, if_false, ne_eq, not_true_eq_false, hr, not_false_eq_true, if_true,
        false_or, true_and, false_and, or_false]
      omega
  · simp [h, not_lt.mpr h.le, h.ne']

theorem sorted_sort (es : List Event) : (sort es).Pairwise fun a b => a.key ≤ b.key := by
  refine (List.pairwise_mergeSort (fun a b c hab hbc => ?_) (fun a b => ?_) es).imp fun hab =>
    compare_iff.mp (of_decide_eq_true hab)
  · simp only [decide_eq_true_eq, compare_iff] at hab hbc ⊢
    exact hab.trans hbc
  · simp only [Bool.or_eq_true, decide_eq_true_eq, compare_iff]
    exact le_total _ _

theorem id_of_key {a b : Event} (h : a.key = b.key) : a.id = b.id :=
  (Prod.mk.inj (Prod.mk.inj h).2).2

theorem eq_of_sorted {xs ys : List Event} (hperm : xs.Perm ys) (hids : (ys.map id).Nodup)
    (hx : xs.Pairwise fun a b => a.key ≤ b.key) (hy : ys.Pairwise fun a b => a.key ≤ b.key) :
    xs = ys := by
  refine hperm.eq_of_pairwise (fun a b ha hb hab hba => ?_) hx hy
  exact List.inj_on_of_nodup_map hids (hperm.mem_iff.mp ha) hb (id_of_key (hab.antisymm hba))

theorem sort_eq {es sorted : List Event} (hperm : es.Perm sorted) (hids : (sorted.map id).Nodup)
    (hcompare : sorted.Pairwise fun a b => compare a b ≤ 0) : sort es = sorted :=
  eq_of_sorted ((List.mergeSort_perm _ _).trans hperm) hids (sorted_sort _)
    (hcompare.imp compare_iff.mp)

theorem sort_append_last {es : List Event} {last : Event} (hids : ((es ++ [last]).map id).Nodup)
    (hlast : ∀ e ∈ es, e.key ≤ last.key) : sort (es ++ [last]) = sort es ++ [last] := by
  have hperm : (es ++ [last]).Perm (sort es ++ [last]) :=
    (List.mergeSort_perm es _).symm.append_right _
  refine eq_of_sorted ((List.mergeSort_perm _ _).trans hperm) ((hperm.map id).nodup hids)
    (sorted_sort _) (List.pairwise_append.mpr ⟨sorted_sort es, List.pairwise_singleton _ _, ?_⟩)
  intro e he f hf
  rw [List.mem_singleton.mp hf]
  exact hlast e ((List.mergeSort_perm es _).mem_iff.mp he)

theorem key_le_of_offset {a b : Event} (h : a.offset ≤ b.offset)
    (hrank : a.kind.rank < b.kind.rank) : a.key ≤ b.key := by
  simp only [key, Prod.Lex.toLex_le_toLex]
  exact h.lt_or_eq.imp_right fun h => ⟨h, .inl hrank⟩

theorem key_lt_of_offset {a b : Event} (h : a.offset ≤ b.offset)
    (hrank : a.kind.rank < b.kind.rank) : a.key < b.key := by
  simp only [key, Prod.Lex.toLex_lt_toLex]
  exact h.lt_or_eq.imp_right fun h => ⟨h, .inl hrank⟩

theorem rank_of_interval {e : Event} {i : IntervalCondition} (h : e.interval? = some i) :
    0 < e.kind.rank ∧ e.kind.rank < 3 := by
  cases e with
  | startAction => simp [interval?] at h
  | startCondition => exact ⟨Nat.one_pos, Nat.lt_of_sub_eq_succ rfl⟩
  | endCondition => exact ⟨Nat.two_pos, Nat.lt_of_sub_eq_succ rfl⟩
  | endAction => simp [interval?] at h

theorem interval_of_kind {e : Event} (hstart : e.kind ≠ .startAction)
    (hend : e.kind ≠ .endAction) : ∃ i, e.interval? = some i := by
  cases e with
  | startAction => simp [kind] at hstart
  | startCondition p i => exact ⟨i, rfl⟩
  | endCondition q i => exact ⟨i, rfl⟩
  | endAction => simp [kind] at hend

end Event

structure Unfolds (a : Activity) (d : Rat) (es : List Event) : Prop where
  whole : ∃ p b inner q b', es = .startAction p b d (inner ++ [.endAction q b']) ::
    (inner ++ [.endAction q b']) ∧ p.offset = 0 ∧ q.offset = d ∧
    ∀ e ∈ inner, ∃ i, e.interval? = some i
  belongs : ∀ e ∈ es, e.BelongsTo a
  intervals : ∀ e ∈ es, ∀ i, e.interval? = some i → i.activity = a
  numbered : ∃ n, Numbered n es
  closed : ∀ p i, .startCondition p i ∈ es → ∃ q, .endCondition q i ∈ es ∧ p.offset ≤ q.offset
  sorted : es.Pairwise fun e f => e.key ≤ f.key

theorem Unfolds.of_inner {a : Activity} {d : Rat} {n : Nat} {p q : Placement} {b b' : ActionBody}
    (inner : List Event)
    (hnumbered : Numbered n (.startAction p b d (inner ++ [.endAction q b']) ::
      (inner ++ [.endAction q b'])))
    (hbelongs : ∀ e ∈ Event.startAction p b d (inner ++ [.endAction q b']) ::
      (inner ++ [.endAction q b']), e.BelongsTo a)
    (hinner : ∀ e ∈ inner, ∃ i, e.interval? = some i ∧ i.activity = a)
    (hwithin : ∀ e ∈ inner, 0 ≤ e.offset ∧ e.offset ≤ d)
    (hclosed : ∀ p i, .startCondition p i ∈ inner →
      ∃ q, .endCondition q i ∈ inner ∧ p.offset ≤ q.offset)
    (hsorted : inner.Pairwise fun e f => e.key ≤ f.key) (hd : 0 ≤ d) (hp : p.offset = 0)
    (hq : q.offset = d) : Unfolds a d (.startAction p b d (inner ++ [.endAction q b']) ::
      (inner ++ [.endAction q b'])) where
  whole := ⟨p, b, inner, q, b', rfl, hp, hq, fun e he => by
    obtain ⟨i, hi, -⟩ := hinner e he
    exact ⟨i, hi⟩⟩
  belongs := hbelongs
  intervals e he i hi := by
    rcases List.mem_cons.mp he with rfl | he
    · simp [Event.interval?] at hi
    · rcases List.mem_append.mp he with he | he
      · obtain ⟨j, hj, hactivity⟩ := hinner e he
        rwa [← Option.some.inj (hj.symm.trans hi)]
      · rw [List.mem_singleton.mp he] at hi
        simp [Event.interval?] at hi
  numbered := ⟨n, hnumbered⟩
  closed p i hi := by
    obtain ⟨q, hq, hforward⟩ := hclosed p i (by simpa using hi)
    exact ⟨q, by simp [hq], hforward⟩
  sorted := by
    have hrank (e : Event) (he : e ∈ inner) : 0 < e.kind.rank ∧ e.kind.rank < 3 := by
      obtain ⟨i, hi, -⟩ := hinner e he
      exact Event.rank_of_interval hi
    have hzero (e : Event) (he : 0 ≤ e.offset) :
        (Event.startAction p b d (inner ++ [.endAction q b'])).offset ≤ e.offset := hp.trans_le he
    have hlast (e : Event) (he : e.offset ≤ d) : e.offset ≤ (Event.endAction q b').offset :=
      he.trans_eq hq.symm
    refine List.pairwise_cons.mpr ⟨fun e he => ?_, List.pairwise_append.mpr
      ⟨hsorted, List.pairwise_singleton _ _, fun e he f hf => ?_⟩⟩
    · rcases List.mem_append.mp he with he | he
      · exact Event.key_le_of_offset (hzero e (hwithin e he).1) (hrank e he).1
      · rw [List.mem_singleton.mp he]
        exact Event.key_le_of_offset (hzero _ (hd.trans_eq hq.symm)) (Nat.succ_pos 2)
    · rw [List.mem_singleton.mp hf]
      exact Event.key_le_of_offset (hlast e (hwithin e he).2) (hrank e he).2

namespace Unfolds

variable {a : Activity} {d : Rat} {es front back : List Event} {e f : Event}

theorem nodup (h : Unfolds a d es) : (es.map Event.id).Nodup := by
  obtain ⟨n, hn⟩ := h.numbered
  exact hn.nodup

theorem opened_before (h : Unfolds a d es) {q : Placement} {i : IntervalCondition}
    (hes : es = front ++ .endCondition q i :: back) : ∃ p, .startCondition p i ∈ front := by
  obtain ⟨n, hn⟩ := h.numbered
  have hmem : .endCondition q i ∈ es := by simp [hes]
  obtain ⟨p, hp⟩ := hn.paired.opened q i hmem
  obtain ⟨q', hq', hforward⟩ := h.closed p i hp
  obtain rfl : q' = q := (Event.endCondition.inj (hn.closing_unique hmem hq' rfl)).1
  refine ⟨p, ?_⟩
  rw [hes] at hp
  rcases List.mem_append.mp hp with hp | hp
  · exact hp
  · have hsorted := h.sorted
    rw [hes, List.pairwise_append, List.pairwise_cons] at hsorted
    have hback : .startCondition p i ∈ back := by simpa using hp
    have hlt : (Event.startCondition p i).key < (Event.endCondition q' i).key :=
      Event.key_lt_of_offset hforward (Nat.lt_succ_self 1)
    exact absurd (hsorted.2.1.1 _ hback) (not_le.mpr hlt)

theorem start_first (h : Unfolds a d es) (hes : es = front ++ e :: back) :
    e.kind = .startAction ↔ front = [] := by
  obtain ⟨p, b, inner, q, b', hwhole, -, -, hinner⟩ := h.whole
  rw [hwhole] at hes
  cases front with
  | nil =>
      rw [← (List.cons.inj hes).1]
      exact iff_of_true rfl rfl
  | cons x front =>
      have hmem : e ∈ inner ++ [.endAction q b'] := by
        rw [(List.cons.inj hes).2]
        simp
      refine iff_of_false (fun hkind => ?_) (List.cons_ne_nil _ _)
      rcases List.mem_append.mp hmem with he | he
      · obtain ⟨i, hi⟩ := hinner e he
        have hrank := (Event.rank_of_interval hi).1
        rw [hkind] at hrank
        exact absurd hrank (lt_irrefl 0)
      · rw [List.mem_singleton.mp he] at hkind
        simp [Event.kind] at hkind

theorem end_last (h : Unfolds a d es) (hes : es = front ++ e :: back) :
    e.kind = .endAction ↔ back = [] := by
  obtain ⟨p, b, inner, q, b', hwhole, -, -, hinner⟩ := h.whole
  rw [hwhole, ← List.cons_append] at hes
  rcases back.eq_nil_or_concat with rfl | ⟨back, f, rfl⟩
  · rw [← List.singleton_inj.mp (List.append_inj_right' hes rfl)]
    exact iff_of_true rfl rfl
  · have hfront : _ = front ++ e :: back :=
      List.append_inj_left' (hes.trans (by simp : _ = (front ++ e :: back) ++ [f])) rfl
    have hmem : e ∈ Event.startAction p b d (inner ++ [.endAction q b']) :: inner := by
      rw [hfront]
      simp
    refine iff_of_false (fun hkind => ?_) (by simp)
    rcases List.mem_cons.mp hmem with rfl | he
    · simp [Event.kind] at hkind
    · obtain ⟨i, hi⟩ := hinner e he
      have hrank := (Event.rank_of_interval hi).2
      rw [hkind] at hrank
      exact absurd hrank (lt_irrefl 3)

theorem offset_within (h : Unfolds a d es) (he : e ∈ es) : 0 ≤ e.offset ∧ e.offset ≤ d := by
  obtain ⟨p, b, inner, q, b', hwhole, hp, hq, -⟩ := h.whole
  have hsorted := h.sorted
  rw [hwhole, ← List.cons_append] at hsorted he
  have hoffset {e f : Event} (hle : e.key ≤ f.key) : e.offset ≤ f.offset := by
    simp only [Event.key, Prod.Lex.toLex_le_toLex] at hle
    exact hle.elim le_of_lt fun hle => hle.1.le
  have hstart : (Event.startAction p b d (inner ++ [.endAction q b'])).offset = 0 := hp
  have hfinish : (Event.endAction q b').offset = d := hq
  constructor
  · rw [List.cons_append, List.pairwise_cons] at hsorted
    rcases List.mem_cons.mp he with rfl | he
    · exact hstart.ge
    · exact hstart ▸ hoffset (hsorted.1 e he)
  · rcases List.mem_append.mp he with he | he
    · have hlast := (List.pairwise_append.mp hsorted).2.2 e he _ (List.mem_singleton_self _)
      exact hfinish ▸ hoffset hlast
    · rw [List.mem_singleton.mp he]
      exact hfinish.le

theorem committed_eq (h : Unfolds a d (e :: back)) : e.committed = back := by
  obtain ⟨p, b, inner, q, b', hwhole, -⟩ := h.whole
  obtain ⟨rfl, rfl⟩ := List.cons.inj hwhole
  rfl

theorem exists_cons (h : Unfolds a d es) : ∃ e rest, es = e :: rest ∧ rest ≠ [] := by
  obtain ⟨p, b, inner, q, b', hwhole, -⟩ := h.whole
  exact ⟨_, _, hwhole, by simp⟩

end Unfolds

section Bounds

variable {a : DurativeAction} {d q epsilon : Rat} {s : Span}

structure Span.Within (s : Span) (d : Rat) : Prop where
  lower : 0 ≤ s.lower
  forward : s.lower ≤ s.upper
  upper : s.upper ≤ d

theorem Timeline.within_span {i : Interval} (h : Timeline.span a d i = .ok s)
    (hempty : s.isEmpty = false) : s.Within d := by
  simp only [Timeline.span, except_bind_ok, except_pure_ok] at h
  obtain ⟨l, hl, u, hu, rfl⟩ := h
  simp only [Span.isEmpty, Bool.or_eq_false_iff, decide_eq_false_iff_not, not_lt] at hempty
  exact ⟨(DurativeAction.offset_within hl).1, hempty.1, (DurativeAction.offset_within hu).2⟩

theorem Span.within_instant {t : Timing} (h : a.offset d t = .ok q) : (Span.instant q).Within d :=
  ⟨(DurativeAction.offset_within h).1, le_rfl, (DurativeAction.offset_within h).2⟩

theorem Span.Within.shifted (h : s.Within d) (hε : 0 ≤ epsilon) : 0 ≤ (s.shifted epsilon).1 ∧
    (s.shifted epsilon).1 ≤ (s.shifted epsilon).2 ∧ (s.shifted epsilon).2 ≤ d := by
  obtain ⟨hlower, hforward, hupper⟩ := h
  have hl : s.lower ≤ if s.leftOpen then s.lower + epsilon else s.lower := by
    split <;> linarith
  have hu : (if s.rightOpen then s.upper - epsilon else s.upper) ≤ s.upper := by
    split <;> linarith
  unfold Span.shifted
  dsimp only
  generalize (if s.leftOpen then s.lower + epsilon else s.lower) = l at hl ⊢
  generalize (if s.rightOpen then s.upper - epsilon else s.upper) = u at hu ⊢
  split
  · exact ⟨by linarith, le_rfl, by linarith⟩
  · rename_i hroom
    exact ⟨hlower.trans hl, not_lt.mp hroom, hu.trans hupper⟩

namespace Timeline

variable {t t' : Timeline}

def Within (t : Timeline) (d : Rat) : Prop := ∀ s ∈ t.spans.keys, s.Within d

theorem Within.onSpan (h : t.Within d) (hs : s.Within d) (f : SpanContent → SpanContent) :
    (t.onSpan s f).Within d := by
  intro s' hs'
  rw [Timeline.onSpan, OrderedMap.keys_put] at hs'
  split at hs'
  · exact h s' hs'
  · rcases List.mem_append.mp hs' with hs' | hs'
    · exact h s' hs'
    · exact List.mem_singleton.mp hs' ▸ hs

theorem Within.addOver (h : t.Within d) (hs : s.Within d) (c : Expr) :
    (t.addOver s c).Within d := by
  unfold Timeline.addOver
  dsimp only
  refine Within.onSpan ?_ hs _
  split
  · exact h
  · exact h

theorem Within.addCondition (h : t.Within d) {c : TimedCondition}
    (hc : addCondition a d t c = .ok t') : t'.Within d := by
  simp only [Timeline.addCondition, except_bind_ok] at hc
  obtain ⟨s, hs, hc⟩ := hc
  split at hc
  · exact except_pure_ok.mp hc ▸ h
  · rename_i hempty
    have hover := h.addOver (within_span hs (by simpa using hempty)) c.condition
    split at hc
    · split at hc
      · exact except_pure_ok.mp hc ▸ h
      · exact except_pure_ok.mp hc ▸ h
      · exact except_pure_ok.mp hc ▸ hover
    · exact except_pure_ok.mp hc ▸ hover

theorem Within.addEffect (h : t.Within d) {e : TimedEffect} (he : addEffect a d t e = .ok t') :
    t'.Within d := by
  simp only [Timeline.addEffect, except_bind_ok] at he
  obtain ⟨q, hq, he⟩ := he
  split at he
  · exact except_pure_ok.mp he ▸ h
  · exact except_pure_ok.mp he ▸ h
  · exact except_pure_ok.mp he ▸ h.onSpan (Span.within_instant hq) _

theorem Within.addSimulated (h : t.Within d) {e : SimulatedEffect}
    (he : addSimulated a d t e = .ok t') : t'.Within d := by
  simp only [Timeline.addSimulated, except_bind_ok] at he
  obtain ⟨q, hq, he⟩ := he
  cases hp : Place.ofOffset e.timing.anchor q d with
  | start =>
      simp only [hp] at he
      split at he
      · simp at he
      · exact except_pure_ok.mp he ▸ h
  | finish =>
      simp only [hp] at he
      split at he
      · simp at he
      · exact except_pure_ok.mp he ▸ h
  | inner =>
      simp only [hp] at he
      split at he
      · simp at he
      · exact except_pure_ok.mp he ▸ h.onSpan (Span.within_instant hq) _

theorem Within.addContinuous (h : t.Within d) {e : ContinuousEffect}
    (he : addContinuous a d t e = .ok t') : t'.Within d := by
  simp only [Timeline.addContinuous, except_bind_ok] at he
  obtain ⟨s, hs, he⟩ := he
  split at he
  · exact except_pure_ok.mp he ▸ h
  · rename_i hempty
    exact except_pure_ok.mp he ▸ h.onSpan (within_span hs (by simpa using hempty)) _

theorem within_ofAction (h : ofAction a d = .ok t) : t.Within d := by
  simp only [Timeline.ofAction, except_bind_ok] at h
  obtain ⟨t₁, h₁, t₂, h₂, t₃, h₃, h₄⟩ := h
  have hempty : Timeline.empty.Within d := fun s hs => absurd hs List.not_mem_nil
  have hwithin : t₁.Within d := foldlM_keeps (f := addCondition a d) (P := (Within · d))
    (fun _ _ _ hx h => h.addCondition hx) h₁ hempty
  have hwithin : t₂.Within d := foldlM_keeps (f := addEffect a d) (P := (Within · d))
    (fun _ _ _ hx h => h.addEffect hx) h₂ hwithin
  have hwithin : t₃.Within d := foldlM_keeps (f := addSimulated a d) (P := (Within · d))
    (fun _ _ _ hx h => h.addSimulated hx) h₃ hwithin
  exact foldlM_keeps (f := addContinuous a d) (P := (Within · d))
    (fun _ _ _ hx h => h.addContinuous hx) h₄ hwithin

end Timeline

end Bounds

section Events

open Timeline

variable {c : Clock} {activity : Activity} {n : Nat} {spans : List (Span × SpanContent)}
  {e : Event} {es : List Event} {d : Rat}

theorem mem_innerEvents (he : e ∈ innerEvents c activity n spans) : ∃ m s x,
    (s, x) ∈ spans ∧ e ∈ spanEvents c activity m s x ∧
      ∀ f ∈ spanEvents c activity m s x, f ∈ innerEvents c activity n spans := by
  induction spans generalizing n with
  | nil => simp [innerEvents] at he
  | cons y spans ih =>
      rcases List.mem_append.mp he with he | he
      · exact ⟨n, y.1, y.2, List.mem_cons_self, he, fun f hf => List.mem_append_left _ hf⟩
      · obtain ⟨m, s, x, hs, he, hall⟩ := ih he
        exact ⟨m, s, x, List.mem_cons_of_mem _ hs, he,
          fun f hf => List.mem_append_right _ (hall f hf)⟩

variable {t : Timeline}

theorem inner_of_spanEvents {s : Span} {x : SpanContent} (he : e ∈ spanEvents c activity n s x) :
    e.interval? = some (spanInterval c activity n s x) := by
  rw [spanEvents_eq] at he
  rcases List.mem_pair.mp he with rfl | rfl
  · rfl
  · rfl

theorem offset_of_spanEvents {s : Span} {x : SpanContent} (hs : s.Within d) (hε : 0 ≤ c.epsilon)
    (he : e ∈ spanEvents c activity n s x) : 0 ≤ e.offset ∧ e.offset ≤ d := by
  obtain ⟨hlower, hforward, hupper⟩ := hs.shifted hε
  rw [spanEvents_eq] at he
  rcases List.mem_pair.mp he with rfl | rfl
  · exact ⟨hlower, hforward.trans hupper⟩
  · exact ⟨hlower.trans hforward, hupper⟩

theorem Timeline.Within.entries {t : Timeline} (ht : t.Within d) {s : Span} {x : SpanContent}
    (hs : (s, x) ∈ t.spans.entries) : s.Within d :=
  ht s (List.mem_map_of_mem (f := Prod.fst) hs)

theorem within_innerEvents (hε : 0 ≤ c.epsilon)
    (hspans : ∀ s x, (s, x) ∈ spans → s.Within d)
    (he : e ∈ innerEvents c activity n spans) : 0 ≤ e.offset ∧ e.offset ≤ d := by
  obtain ⟨m, s, x, hs, he, -⟩ := mem_innerEvents he
  exact offset_of_spanEvents (hspans s x hs) hε he

variable (c activity) in
theorem Timeline.events_eq (ht : t.Within d) (hε : 0 ≤ c.epsilon) : ∃ q : Placement,
    t.events c activity d = .startAction (c.place 0 activity 0 false "start") t.start d
        (Event.sort (innerEvents c activity 1 t.spans.entries) ++ [.endAction q t.finish]) ::
      (Event.sort (innerEvents c activity 1 t.spans.entries) ++ [.endAction q t.finish]) ∧
    q.offset = d := by
  refine ⟨c.place (1 + (innerEvents c activity 1 t.spans.entries).length) activity d false "end",
    ?_, rfl⟩
  have hids : ((t.events c activity d).map Event.id).Nodup := numbered_events.nodup
  rw [Timeline.events, Event.sort_append_last]
  · exact ((List.mergeSort_perm _ _).map Event.id).nodup (List.nodup_cons.mp hids).2
  · intro e he
    obtain ⟨-, hle⟩ := within_innerEvents hε (fun s x hs => ht.entries hs) he
    obtain ⟨m, s, x, -, he, -⟩ := mem_innerEvents he
    exact Event.key_le_of_offset hle (Event.rank_of_interval (inner_of_spanEvents he)).2

theorem Timeline.unfolds_events (ht : t.Within d) (hd : 0 ≤ d) (hε : 0 ≤ c.epsilon) :
    Unfolds activity d (t.events c activity d) := by
  have hnumbered : Numbered c.next (t.events c activity d) := numbered_events
  have hbelongs (e : Event) (he : e ∈ t.events c activity d) : e.BelongsTo activity :=
    belongs_events he
  have hmem (e : Event) : e ∈ Event.sort (innerEvents c activity 1 t.spans.entries) ↔
      e ∈ innerEvents c activity 1 t.spans.entries := (List.mergeSort_perm _ _).mem_iff
  obtain ⟨q, heq, hq⟩ := Timeline.events_eq c activity ht hε
  rw [heq] at hnumbered hbelongs ⊢
  refine .of_inner _ hnumbered hbelongs (fun e he => ?_) (fun e he => ?_) (fun p i hi => ?_)
    (Event.sorted_sort _) hd rfl hq
  · obtain ⟨m, s, x, -, he, -⟩ := mem_innerEvents ((hmem e).mp he)
    exact ⟨_, inner_of_spanEvents he, rfl⟩
  · exact within_innerEvents hε (fun s x hs => ht.entries hs) ((hmem e).mp he)
  · obtain ⟨m, s, x, hs, he, hall⟩ := mem_innerEvents ((hmem _).mp hi)
    rw [spanEvents_eq, List.forall_mem_cons, List.forall_mem_singleton] at hall
    rw [spanEvents_eq] at he
    obtain ⟨rfl, rfl⟩ : p = c.place m activity (s.shifted c.epsilon).1 false ("open" ++ s.label) ∧
        i = spanInterval c activity m s x := by simpa using he
    exact ⟨_, (hmem _).mpr hall.2, ((ht.entries hs).shifted hε).2.1⟩

variable {a : Action} {duration : Option Rat}

theorem unfolds_instantaneous (a : InstantaneousAction) :
    Unfolds activity 0 (a.events c activity) := by
  refine .of_inner [] (numbered_instantaneous a) (fun e he => belongs_instantaneous he) ?_ ?_ ?_
    .nil le_rfl rfl rfl <;> simp

theorem Action.unfolds (h : a.events c activity duration = .ok es) (hε : 0 ≤ c.epsilon) :
    Unfolds activity (duration.getD 0) es := by
  cases a with
  | instantaneous i =>
      cases duration with
      | none =>
          obtain rfl : i.events c activity = es := by simpa [Action.events] using h
          exact unfolds_instantaneous i
      | some d =>
          simp only [Action.events] at h
          split at h
          · rename_i hd
            obtain rfl : i.events c activity = es := by simpa using h
            rw [hd]
            exact unfolds_instantaneous i
          · simp at h
  | durative b =>
      cases duration with
      | none => simp [Action.events] at h
      | some d =>
          simp only [Action.events] at h
          split at h
          · simp at h
          · rename_i hd
            obtain ⟨t, ht, h⟩ := except_bind_ok.mp h
            rw [← except_pure_ok.mp h]
            exact Timeline.unfolds_events (within_ofAction ht) (not_lt.mp hd) hε

end Events

end TemporalPlanning
