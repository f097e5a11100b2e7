import Mathlib.Data.List.Count
import Mathlib.Data.List.Infix
import Mathlib.Data.List.Nodup
import Mathlib.Tactic.Common
import Mathlib.Tactic.Linarith

namespace Bcb.Lib.Ngram

variable {α : Type}

/-- The last `D` elements. -/
def tail (D : Nat) (s : List α) : List α := s.drop (s.length - D)

/-- The nonempty ends of `w`, the shortest first, each with what follows it. -/
def ends (w : List α) (b : α) : List (List α × α) :=
  (List.range' 1 w.length).map fun n => (w.drop (w.length - n), b)

/-- At every position of a sequence, what precedes it with what is there. -/
def log (D : Nat) (s : List α) : List (List α × α) :=
  (List.range s.length).flatMap fun i =>
    match s[i]? with
    | some b => ends (tail D (s.take i)) b
    | none => []

variable {D : Nat} {s w c : List α} {b x : α}

@[simp] theorem tail_length (D : Nat) (s : List α) : (tail D s).length = min s.length D := by
  rw [tail, List.length_drop]
  omega

theorem tail_concat_of_lt (h : s.length < D) (b : α) : tail D (s ++ [b]) = tail D s ++ [b] := by
  have hs : s.length - D = 0 := by omega
  have hb : (s ++ [b]).length - D = 0 := by
    rw [List.length_append, List.length_singleton]
    omega
  rw [tail, tail, hs, hb, List.drop_zero, List.drop_zero]

theorem tail_concat_of_le (h0 : 0 < D) (h : D ≤ s.length) (b : α) :
    tail D (s ++ [b]) = (tail D s).drop 1 ++ [b] := by
  have hb : (s ++ [b]).length - D = s.length - D + 1 := by
    rw [List.length_append, List.length_singleton]
    omega
  rw [tail, tail, hb, List.drop_drop, List.drop_append_of_le_length (by omega)]

theorem suffix_tail (h : c.length ≤ D) : c <:+ tail D s ↔ c <:+ s := by
  constructor
  · exact fun hc => hc.trans (List.drop_suffix _ _)
  · intro hc
    have hlen := hc.length_le
    apply List.suffix_of_suffix_length_le hc (List.drop_suffix _ _)
    rw [List.length_drop]
    omega

@[simp] theorem log_concat (D : Nat) (s : List α) (b : α) :
    log D (s ++ [b]) = log D s ++ ends (tail D s) b := by
  rw [log, List.length_append, List.length_singleton, List.range_succ, List.flatMap_append]
  congr 1
  · apply List.flatMap_congr
    intro i hi
    have hlt := List.mem_range.1 hi
    rw [List.getElem?_append_left hlt, List.take_append_of_le_length hlt.le]
  · simp

theorem log_prefix (D : Nat) (s t : List α) : log D s <+: log D (s ++ t) := by
  induction t using List.reverseRecOn with
  | nil => rw [List.append_nil]
  | append_singleton t b ih =>
    rw [← List.append_assoc, log_concat]
    exact ih.trans (List.prefix_append _ _)

@[simp] theorem ends_length (w : List α) (b : α) : (ends w b).length = w.length := by
  rw [ends, List.length_map, List.length_range']

theorem log_length (D : Nat) (s : List α) :
    (s.length ≤ D → 2 * (log D s).length + s.length = s.length * s.length) ∧
      (D ≤ s.length → 2 * (log D s).length + D * (D + 1) = 2 * (D * s.length)) := by
  induction s using List.reverseRecOn with
  | nil =>
    refine ⟨fun _ => rfl, fun h => ?_⟩
    obtain rfl := Nat.le_zero.1 h
    rfl
  | append_singleton s b ih =>
    obtain ⟨hshort, hlong⟩ := ih
    rw [log_concat, List.length_append, List.length_append, ends_length, tail_length,
      List.length_singleton]
    constructor
    · intro h
      have ih := hshort (Nat.le_of_succ_le h)
      rw [Nat.min_eq_left (Nat.le_of_succ_le h)]
      linarith
    · intro h
      rcases Nat.lt_or_ge s.length D with hlt | hge
      · obtain rfl : D = s.length + 1 := Nat.le_antisymm h hlt
        have ih := hshort (Nat.le_succ _)
        rw [Nat.min_eq_left (Nat.le_succ _)]
        linarith
      · have ih := hlong hge
        rw [Nat.min_eq_right hge]
        linarith

theorem log_length_le (D : Nat) (s : List α) : (log D s).length ≤ D * s.length := by
  induction s using List.reverseRecOn with
  | nil => exact Nat.zero_le _
  | append_singleton s b ih =>
    have htail := tail_length D s
    rw [log_concat, List.length_append, ends_length, List.length_append, List.length_singleton,
      Nat.mul_add, Nat.mul_one]
    omega

theorem countP_short {D : Nat} (hD : 0 < D) (s : List α) :
    ((log D s).countP fun u => u.1.length = 1) = s.length - 1 := by
  have hends : ∀ (w : List α) (b : α), ((ends w b).countP fun u => u.1.length = 1) =
      if w = [] then 0 else 1 := by
    intro w b
    cases w with
    | nil => rfl
    | cons x w =>
      rw [if_neg (List.cons_ne_nil x w), ends, List.countP_map, List.length_cons,
        List.range'_succ, List.countP_cons, List.countP_eq_zero.2]
      · simp
      · intro n hn
        obtain ⟨h1, h2⟩ := List.mem_range'_1.1 hn
        simp only [Function.comp_apply, List.length_drop, List.length_cons, decide_eq_true_eq]
        omega
  induction s using List.reverseRecOn with
  | nil => rfl
  | append_singleton s b ih =>
    have htail : tail D s = [] ↔ s.length = 0 := by
      rw [← List.length_eq_zero_iff, tail_length]
      omega
    rw [log_concat, List.countP_append, ih, hends, List.length_append, List.length_singleton]
    simp only [htail]
    split_ifs <;> omega

@[simp] theorem mem_ends {u : List α × α} : u ∈ ends w b ↔ u.1 ≠ [] ∧ u.1 <:+ w ∧ u.2 = b := by
  rw [ends, List.mem_map]
  constructor
  · rintro ⟨n, hn, rfl⟩
    obtain ⟨hn1, hnw⟩ := List.mem_range'_1.1 hn
    refine ⟨?_, List.drop_suffix _ _, rfl⟩
    rw [Ne, List.drop_eq_nil_iff]
    omega
  · rintro ⟨hne, hsuffix, rfl⟩
    have hpos := List.length_pos_iff.2 hne
    have hle := hsuffix.length_le
    refine ⟨u.1.length, List.mem_range'_1.2 ⟨hpos, by omega⟩, ?_⟩
    rw [← List.suffix_iff_eq_drop.1 hsuffix]

theorem mem_log {u : List α × α} (h : u ∈ log D s) : u.1 ≠ [] ∧ u.1.length ≤ D := by
  obtain ⟨i, -, hu⟩ := List.mem_flatMap.1 h
  cases hb : s[i]? with
  | none =>
    rw [hb] at hu
    cases hu
  | some b =>
    rw [hb] at hu
    obtain ⟨hne, hsuffix, -⟩ := mem_ends.1 hu
    have hlen := hsuffix.length_le
    have htail := tail_length D (s.take i)
    exact ⟨hne, by omega⟩

theorem ends_fst_nodup (w : List α) (b : α) : ((ends w b).map Prod.fst).Nodup := by
  rw [ends, List.map_map]
  apply List.Nodup.map_on _ List.nodup_range'
  intro n hn m hm heq
  obtain ⟨hn1, hnw⟩ := List.mem_range'_1.1 hn
  obtain ⟨hm1, hmw⟩ := List.mem_range'_1.1 hm
  have hlen := congrArg List.length heq
  simp only [Function.comp_apply, List.length_drop] at hlen
  omega

section Counts

variable [DecidableEq α]

/-- The positions that come right after `c`. -/
def occurrences (s c : List α) : Nat := (List.range s.length).countP fun i => c <:+ s.take i

/-- The positions of `b` right after `c`. -/
def followed (s c : List α) (b : α) : Nat :=
  (List.range s.length).countP fun i => c <:+ s.take i ∧ s[i]? = some b

theorem occurrences_le (s c : List α) : occurrences s c ≤ s.length :=
  List.countP_le_length.trans_eq List.length_range

theorem followed_le (s c : List α) (b : α) : followed s c b ≤ s.length :=
  List.countP_le_length.trans_eq List.length_range

@[simp] theorem occurrences_concat (s c : List α) (b : α) :
    occurrences (s ++ [b]) c = occurrences s c + if c <:+ s then 1 else 0 := by
  rw [occurrences, List.length_append, List.length_singleton, List.range_succ, List.countP_append,
    List.countP_singleton]
  congr 1
  · apply List.countP_congr
    intro i hi
    rw [List.take_append_of_le_length (List.mem_range.1 hi).le]
  · simp

theorem followed_concat (s c : List α) (b x : α) :
    followed (s ++ [b]) c x = followed s c x + if c <:+ s ∧ b = x then 1 else 0 := by
  rw [followed, List.length_append, List.length_singleton, List.range_succ, List.countP_append,
    List.countP_singleton]
  congr 1
  · apply List.countP_congr
    intro i hi
    have hlt := List.mem_range.1 hi
    rw [List.take_append_of_le_length hlt.le, List.getElem?_append_left hlt]
  · simp

/-- The log names a context once for every position after it. -/
theorem count_log_fst (h0 : c ≠ []) (hD : c.length ≤ D) (s : List α) :
    ((log D s).map Prod.fst).count c = occurrences s c := by
  induction s using List.reverseRecOn with
  | nil => rfl
  | append_singleton s b ih =>
    have hmem : c ∈ (ends (tail D s) b).map Prod.fst ↔ c <:+ s := by
      rw [← suffix_tail hD, List.mem_map]
      constructor
      · rintro ⟨u, hu, rfl⟩
        exact (mem_ends.1 hu).2.1
      · intro hc
        exact ⟨(c, b), mem_ends.2 ⟨h0, hc, rfl⟩, rfl⟩
    rw [log_concat, List.map_append, List.count_append, ih, occurrences_concat,
      (ends_fst_nodup (tail D s) b).count]
    simp only [hmem]

theorem count_log (h0 : c ≠ []) (hD : c.length ≤ D) (s : List α) (x : α) :
    (log D s).count (c, x) = followed s c x := by
  induction s using List.reverseRecOn with
  | nil => rfl
  | append_singleton s b ih =>
    have hmem : (c, x) ∈ ends (tail D s) b ↔ c <:+ s ∧ b = x := by
      rw [mem_ends, suffix_tail hD]
      constructor
      · rintro ⟨-, hc, hx⟩
        exact ⟨hc, hx.symm⟩
      · rintro ⟨hc, hx⟩
        exact ⟨h0, hc, hx.symm⟩
    rw [log_concat, List.count_append, ih, followed_concat,
      (List.Nodup.of_map _ (ends_fst_nodup (tail D s) b)).count]
    simp only [hmem]

theorem mem_log_fst (h0 : c ≠ []) (hD : c.length ≤ D) (s : List α) :
    c ∈ (log D s).map Prod.fst ↔ ∃ i < s.length, c <:+ s.take i := by
  rw [← List.count_pos_iff, count_log_fst h0 hD, occurrences, List.countP_pos_iff]
  simp only [List.mem_range, decide_eq_true_eq]

theorem mem_log_iff (h0 : c ≠ []) (hD : c.length ≤ D) (s : List α) (x : α) :
    (c, x) ∈ log D s ↔ ∃ i < s.length, c <:+ s.take i ∧ s[i]? = some x := by
  rw [← List.count_pos_iff, count_log h0 hD, followed, List.countP_pos_iff]
  simp only [List.mem_range, decide_eq_true_eq]

omit [DecidableEq α] in
theorem log_split {pre post : List (List α × α)} {k : List α × α}
    (h : log D s = pre ++ k :: post) : ∃ t b rest n, s = t ++ b :: rest ∧
      pre = log D t ++ (ends (tail D t) b).take n ∧ (ends (tail D t) b)[n]? = some k := by
  induction s using List.reverseRecOn generalizing post with
  | nil =>
    have hnil := congrArg List.length h
    rw [List.length_append, List.length_cons] at hnil
    cases hnil
  | append_singleton s b ih =>
    rw [log_concat] at h
    rcases List.append_eq_append_iff.1 h with ⟨l, hpre, hends⟩ | ⟨l, hlog, hpost⟩
    · refine ⟨s, b, [], l.length, rfl, ?_, ?_⟩
      · rw [hpre, hends, List.take_left]
      · rw [hends, List.getElem?_append_right (Nat.le_refl _), Nat.sub_self]
        rfl
    · cases l with
      | nil =>
        rw [List.append_nil] at hlog
        refine ⟨s, b, [], 0, rfl, by rw [List.take_zero, List.append_nil, hlog], ?_⟩
        rw [List.nil_append] at hpost
        rw [← hpost]
        rfl
      | cons x l =>
        obtain ⟨rfl, -⟩ := List.cons.inj hpost
        obtain ⟨t, b', rest, n, rfl, hpre, hk⟩ := ih hlog
        exact ⟨t, b', rest ++ [b], n, by rw [List.append_assoc, List.cons_append], hpre, hk⟩

end Counts

theorem suffix_take_inj {w : List α} (hpairs : ∀ i j, i + 1 < s.length → j + 1 < s.length →
    s[i]? = s[j]? → s[i + 1]? = s[j + 1]? → i = j) (hw : 2 ≤ w.length) {i j : Nat}
    (hi : i ≤ s.length) (hj : j ≤ s.length) (hci : w <:+ s.take i) (hcj : w <:+ s.take j) :
    i = j := by
  have hlast : ∀ {k}, k ≤ s.length → w <:+ s.take k → w.length ≤ k ∧
      s[k - 2]? = w[w.length - 2]? ∧ s[k - 2 + 1]? = w[w.length - 1]? := by
    intro k hk hck
    have hle := hck.length_le
    rw [List.length_take, Nat.min_eq_left hk] at hle
    have hdrop := List.suffix_iff_eq_drop.1 hck
    rw [List.length_take, Nat.min_eq_left hk] at hdrop
    have hget : ∀ m < w.length, s[k - w.length + m]? = w[m]? := by
      intro m hm
      have hcm := congrArg (fun l => l[m]?) hdrop
      simp only [List.getElem?_drop] at hcm
      rw [hcm, List.getElem?_take_of_lt (by omega)]
    have h2 := hget (w.length - 2) (by omega)
    have h1 := hget (w.length - 1) (by omega)
    rw [(by omega : k - w.length + (w.length - 2) = k - 2)] at h2
    rw [(by omega : k - w.length + (w.length - 1) = k - 2 + 1)] at h1
    exact ⟨hle, h2, h1⟩
  obtain ⟨hli, hi2, hi1⟩ := hlast hi hci
  obtain ⟨hlj, hj2, hj1⟩ := hlast hj hcj
  have heq := hpairs (i - 2) (j - 2) (by omega) (by omega) (hi2.trans hj2.symm)
    (hi1.trans hj1.symm)
  omega

theorem occurrences_le_one [DecidableEq α] (hpairs : ∀ i j, i + 1 < s.length → j + 1 < s.length →
    s[i]? = s[j]? → s[i + 1]? = s[j + 1]? → i = j) (hc : 2 ≤ c.length) :
    occurrences s c ≤ 1 := by
  rw [occurrences, List.countP_eq_length_filter]
  have hnodup : ((List.range s.length).filter fun i => c <:+ s.take i).Nodup :=
    List.nodup_range.filter _
  have hsub : ∀ a ∈ (List.range s.length).filter (fun i => c <:+ s.take i),
      ∀ b ∈ (List.range s.length).filter (fun i => c <:+ s.take i), a = b := by
    intro a ha b hb
    rw [List.mem_filter, List.mem_range, decide_eq_true_eq] at ha hb
    exact suffix_take_inj hpairs hc ha.1.le hb.1.le ha.2 hb.2
  cases hl : (List.range s.length).filter fun i => c <:+ s.take i with
  | nil => exact Nat.zero_le _
  | cons a l =>
    cases l with
    | nil => exact le_rfl
    | cons b l =>
      rw [hl] at hnodup hsub
      have hab := hsub a List.mem_cons_self b (List.mem_cons_of_mem a List.mem_cons_self)
      exact absurd (hab ▸ List.mem_cons_self) (List.nodup_cons.1 hnodup).1

end Bcb.Lib.Ngram
