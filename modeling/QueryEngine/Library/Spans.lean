import QueryEngine.Library.Selection

/-!
# Library/Spans — places in runs

A span is a run of consecutive places, by its first and the one past its last.  Spans added one after the
other, each where the last ended or later, stay apart when those that meet are joined (`ascending_joined`), and
cover what was added (`covers_joined`); apart, they name their places once and in order (`places_eq`).
-/

open Selection

namespace Spans

variable {spans : List (ℕ × ℕ)}

/-- Whether a place lies in one of some spans. -/
def covers (spans : List (ℕ × ℕ)) (place : ℕ) : Bool :=
  spans.any fun s => decide (s.1 ≤ place) && decide (place < s.2)

theorem covers_iff {place : ℕ} : covers spans place = true ↔ ∃ s ∈ spans, s.1 ≤ place ∧ place < s.2 := by
  rw [covers, List.any_eq_true]
  exact exists_congr fun s => and_congr_right fun _ => by
    rw [Bool.and_eq_true, decide_eq_true_eq, decide_eq_true_eq]

@[simp] theorem covers_reverse (place : ℕ) : covers spans.reverse place = covers spans place := by
  simp [covers]

/-- The places of some spans, span by span. -/
def places (spans : List (ℕ × ℕ)) : List ℕ := spans.flatMap fun s => List.range' s.1 (s.2 - s.1)

theorem mem_places {place : ℕ} : place ∈ places spans ↔ covers spans place = true := by
  rw [places, List.mem_flatMap, covers_iff]
  refine exists_congr fun s => and_congr_right fun _ => ?_
  rw [List.mem_range'_1]
  omega

/-- **Spans in order**: each holds a place, and the next one starts past its end. -/
structure Ascending (spans : List (ℕ × ℕ)) : Prop where
  nonempty : ∀ s ∈ spans, s.1 < s.2
  apart : spans.Pairwise fun s next => s.2 < next.1

/-- Spans in order name their places in order, each once. -/
theorem Ascending.pairwise_places (h : Ascending spans) : (places spans).Pairwise (· < ·) := by
  rw [places, List.pairwise_flatMap]
  refine ⟨fun s _ => List.pairwise_lt_range', h.apart.imp_of_mem fun {s next} hs hnext hlt a ha b hb => ?_⟩
  rw [List.mem_range'_1] at ha hb
  have := h.nonempty s hs
  omega

/-- **The places of spans in order are the places they cover.** -/
theorem places_eq (h : Ascending spans) {n : ℕ} (hle : ∀ s ∈ spans, s.2 ≤ n) :
    places spans = (List.range n).filter (covers spans) := by
  have hsorted : ((List.range n).filter (covers spans)).Pairwise (· < ·) := List.pairwise_lt_range.filter _
  refine h.pairwise_places.eq_of_mem_iff hsorted fun place => ?_
  rw [mem_places, List.mem_filter, List.mem_range]
  refine ⟨fun hcovers => ⟨?_, hcovers⟩, And.right⟩
  obtain ⟨s, hs, -, hlt⟩ := covers_iff.mp hcovers
  have := hle s hs
  omega

/-! ## Joining spans that meet -/

/-- A span added to others, the latest first: the last grows by one that starts where it ends, and a span
without a place is left out. -/
def add (spans : List (ℕ × ℕ)) (next : ℕ × ℕ) : List (ℕ × ℕ) :=
  match spans with
  | [] => if next.2 ≤ next.1 then [] else [next]
  | last :: rest =>
    if last.2 = next.1 then (last.1, next.2) :: rest
    else if next.2 ≤ next.1 then last :: rest else next :: last :: rest

/-- Spans in order, the latest first, that end before a place. -/
structure Before (spans : List (ℕ × ℕ)) (place : ℕ) : Prop where
  nonempty : ∀ s ∈ spans, s.1 < s.2
  apart : spans.Pairwise fun s earlier => earlier.2 < s.1
  ends : ∀ s ∈ spans, s.2 ≤ place

theorem before_nil (place : ℕ) : Before [] place := ⟨by simp, .nil, by simp⟩

theorem Before.mono {place later : ℕ} (h : Before spans place) (hle : place ≤ later) : Before spans later :=
  ⟨h.nonempty, h.apart, fun s hs => (h.ends s hs).trans hle⟩

/-- **A span added at the end keeps spans apart.** -/
theorem Before.add {next : ℕ × ℕ} (h : Before spans next.1) (hle : next.1 ≤ next.2) :
    Before (add spans next) next.2 := by
  cases spans with
  | nil =>
    rw [Spans.add]
    split
    · exact before_nil _
    · next hne =>
      exact ⟨fun s hs => by obtain rfl := List.mem_singleton.mp hs; omega, List.pairwise_singleton _ _,
        fun s hs => by rw [List.mem_singleton.mp hs]⟩
  | cons last rest =>
    obtain ⟨hapart, hrest⟩ := List.pairwise_cons.mp h.apart
    have hlast := h.nonempty last List.mem_cons_self
    have hend := h.ends last List.mem_cons_self
    unfold Spans.add
    dsimp only
    split
    · refine ⟨fun s hs => ?_, List.pairwise_cons.mpr ⟨hapart, hrest⟩, fun s hs => ?_⟩
      · rcases List.mem_cons.mp hs with rfl | hs
        · change last.1 < next.2
          omega
        · exact h.nonempty s (List.mem_cons_of_mem _ hs)
      · rcases List.mem_cons.mp hs with rfl | hs
        · exact le_rfl
        · exact (h.ends s (List.mem_cons_of_mem _ hs)).trans hle
    · split
      · exact h.mono hle
      · next hne hne' =>
        refine ⟨fun s hs => ?_, List.pairwise_cons.mpr ⟨fun s hs => ?_, h.apart⟩, fun s hs => ?_⟩
        · rcases List.mem_cons.mp hs with rfl | hs
          · omega
          · exact h.nonempty s hs
        · rcases List.mem_cons.mp hs with rfl | hs
          · omega
          · have := hapart s hs
            omega
        · rcases List.mem_cons.mp hs with rfl | hs
          · exact le_rfl
          · exact (h.ends s hs).trans hle

/-- **A span added covers its places beside the others'.** -/
theorem covers_add {next : ℕ × ℕ} (h : Before spans next.1) (hle : next.1 ≤ next.2) (place : ℕ) :
    covers (add spans next) place = true ↔
      covers spans place = true ∨ (next.1 ≤ place ∧ place < next.2) := by
  cases spans with
  | nil =>
    rw [Spans.add]
    split
    · simp only [covers, List.any_nil, Bool.false_eq_true, false_or]
      exact ⟨False.elim, fun hin => by omega⟩
    · simp [covers]
  | cons last rest =>
    have hlast := h.nonempty last List.mem_cons_self
    have hcons (s : ℕ × ℕ) (ss : List (ℕ × ℕ)) : covers (s :: ss) place = true ↔
        (s.1 ≤ place ∧ place < s.2) ∨ covers ss place = true := by
      rw [covers, List.any_cons, Bool.or_eq_true, Bool.and_eq_true, decide_eq_true_eq, decide_eq_true_eq]
      rfl
    unfold Spans.add
    dsimp only
    split
    · rw [hcons, hcons]
      dsimp only
      constructor
      · rintro (hin | hin)
        · omega
        · exact .inl (.inr hin)
      · rintro ((hin | hin) | hin)
        · exact .inl (by omega)
        · exact .inr hin
        · exact .inl (by omega)
    · split
      · constructor
        · exact .inl
        · rintro (hin | hin)
          · exact hin
          · omega
      · rw [hcons next (last :: rest)]
        exact or_comm

/-! ## Windows -/

/-- The windows that some offsets cut, joined where they meet, without those that are skipped; the latest
first. -/
def joined (offset : ℕ → ℕ) (skip : ℕ → Bool) : ℕ → List (ℕ × ℕ)
  | 0 => []
  | k + 1 => if skip k then joined offset skip k else add (joined offset skip k) (offset k, offset (k + 1))

variable {offset : ℕ → ℕ} (hmono : ∀ k, offset k ≤ offset (k + 1)) (skip : ℕ → Bool)
include hmono

theorem before_joined : ∀ k, Before (joined offset skip k) (offset k)
  | 0 => before_nil _
  | k + 1 => by
    rw [joined]
    split
    · exact (before_joined k).mono (hmono k)
    · exact (before_joined k).add (hmono k)

/-- **Windows joined stay in order.** -/
theorem ascending_joined (k : ℕ) : Ascending (joined offset skip k).reverse :=
  ⟨fun s hs => (before_joined hmono skip k).nonempty s (List.mem_reverse.mp hs),
    List.pairwise_reverse.mpr (before_joined hmono skip k).apart⟩

/-- **Windows joined cover those not skipped.** -/
theorem covers_joined (place : ℕ) : ∀ k, covers (joined offset skip k) place = true ↔
    ∃ w < k, skip w = false ∧ offset w ≤ place ∧ place < offset (w + 1)
  | 0 => by simp [joined, covers]
  | k + 1 => by
    have hlast : (∃ w < k + 1, skip w = false ∧ offset w ≤ place ∧ place < offset (w + 1)) ↔
        (∃ w < k, skip w = false ∧ offset w ≤ place ∧ place < offset (w + 1)) ∨
          (skip k = false ∧ offset k ≤ place ∧ place < offset (k + 1)) := by
      rw [Nat.exists_lt_succ_right]
    rw [joined, hlast, ← covers_joined place k]
    split
    · next hskip => simp [hskip]
    · next hskip =>
      rw [covers_add (before_joined hmono skip k) (hmono k)]
      simp [hskip]

omit hmono in
/-- Offsets have a window for each place before the last of them. -/
theorem exists_window {place : ℕ} : ∀ {k : ℕ}, offset 0 ≤ place → place < offset k →
    ∃ w < k, offset w ≤ place ∧ place < offset (w + 1)
  | 0, hfirst, hlast => absurd hlast (not_lt.mpr hfirst)
  | k + 1, hfirst, hlast => by
    rcases Nat.lt_or_ge place (offset k) with hlt | hge
    · obtain ⟨w, hw, hin⟩ := exists_window hfirst hlt
      exact ⟨w, by omega, hin⟩
    · exact ⟨k, by omega, hge, hlast⟩

end Spans
