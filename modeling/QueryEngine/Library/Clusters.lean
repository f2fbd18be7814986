import Mathlib

/-!
# Library/Clusters — spans that overlap, joined

Spans in order are joined while the next starts before the last end.  What is joined are the clusters of spans
that overlap strictly, one with the next (`Clusters`), so the ends do not depend on how the spans came
(`exists_clusters`).
-/

namespace Clusters

variable {α : Type*} [LinearOrder α]

/-- Spans that share more than an end. -/
def Overlap (s t : α × α) : Prop := s.1 < t.2 ∧ t.1 < s.2

theorem Overlap.symm {s t : α × α} (h : Overlap s t) : Overlap t s := And.symm h

/-- A place that is the last of a cluster. -/
def Closes (cluster : List (α × α)) (e : α) : Prop := (∃ s ∈ cluster, s.2 = e) ∧ ∀ s ∈ cluster, s.2 ≤ e

/-- Spans each of which is reached from each by overlaps among them. -/
def Linked (cluster : List (α × α)) : Prop :=
  ∀ s ∈ cluster, ∀ t ∈ cluster, Relation.ReflTransGen (fun a b => b ∈ cluster ∧ Overlap a b) s t

/-- Clusters of some spans, in ascending order: no span of one starts before a span of an earlier one ends. -/
structure Clustering (spans : List (α × α)) (clusters : List (List (α × α))) : Prop where
  parts : clusters.flatten.Perm spans
  linked : ∀ c ∈ clusters, c ≠ [] ∧ Linked c
  ascending : clusters.Pairwise fun c d => ∀ s ∈ c, ∀ t ∈ d, s.2 ≤ t.1

/-! ## Joining -/

/-- A span joined to the ends so far, the last first. -/
def join (ends : List α) (span : α × α) : List α :=
  match ends with
  | previous :: rest => if span.1 < previous then max previous span.2 :: rest else span.2 :: ends
  | [] => [span.2]

/-- Where the clusters of spans in order end, the last first. -/
def joinAll (spans : List (α × α)) : List α := spans.foldl join []

theorem joinAll_eq_nil {spans : List (α × α)} : joinAll spans = [] ↔ spans = [] := by
  have hjoin (ends : List α) (span : α × α) : join ends span ≠ [] := by
    cases ends with
    | nil => exact List.cons_ne_nil _ _
    | cons previous rest =>
      rw [join]
      split <;> exact List.cons_ne_nil _ _
  constructor
  · intro h
    rcases List.eq_nil_or_concat' spans with rfl | ⟨before, last, rfl⟩
    · rfl
    · rw [joinAll, List.foldl_concat] at h
      exact absurd h (hjoin _ _)
  · rintro rfl
    rfl

/-- What joining has made of spans: clusters and their ends, the last first. -/
structure Gathered (spans : List (α × α)) (clusters : List (List (α × α))) (ends : List α) : Prop where
  order : clusters.reverse.flatten = spans
  closed : List.Forall₂ Closes clusters ends
  linked : ∀ c ∈ clusters, c ≠ [] ∧ Linked c
  ascending : clusters.Pairwise fun d c => ∀ s ∈ c, ∀ t ∈ d, s.2 ≤ t.1

theorem linked_singleton (s : α × α) : Linked [s] := by
  intro a ha b hb
  rw [List.mem_singleton.mp ha, List.mem_singleton.mp hb]

/-- **A span that overlaps one of a cluster is linked to all of it.** -/
theorem Linked.concat {cluster : List (α × α)} (h : Linked cluster) {s x : α × α} (hs : s ∈ cluster)
    (hover : Overlap s x) : Linked (cluster ++ [x]) := by
  have hmono {a b : α × α} (hab : Relation.ReflTransGen (fun a b => b ∈ cluster ∧ Overlap a b) a b) :
      Relation.ReflTransGen (fun a b => b ∈ cluster ++ [x] ∧ Overlap a b) a b :=
    Relation.ReflTransGen.mono (fun _ _ hstep => ⟨List.mem_append_left _ hstep.1, hstep.2⟩) _ _ hab
  have hx : x ∈ cluster ++ [x] := by simp
  intro a ha b hb
  rcases List.mem_append.mp ha with ha | ha
  · rcases List.mem_append.mp hb with hb | hb
    · exact hmono (h a ha b hb)
    · rw [List.mem_singleton.mp hb]
      exact (hmono (h a ha s hs)).tail ⟨hx, hover⟩
  · rw [List.mem_singleton.mp ha]
    rcases List.mem_append.mp hb with hb | hb
    · exact .head ⟨List.mem_append_left _ hs, hover.symm⟩ (hmono (h s hs b hb))
    · rw [List.mem_singleton.mp hb]

theorem closes_singleton (x : α × α) : Closes [x] x.2 :=
  ⟨⟨x, List.mem_singleton_self x, rfl⟩, fun s hs => by rw [List.mem_singleton.mp hs]⟩

/-- A cluster one span more is in ends where the later of the two does. -/
theorem Closes.concat {cluster : List (α × α)} {e : α} (h : Closes cluster e) (x : α × α) :
    Closes (cluster ++ [x]) (max e x.2) := by
  obtain ⟨⟨last, hlast, he⟩, hbelow⟩ := h
  refine ⟨?_, fun s hs => ?_⟩
  · rcases le_total e x.2 with hle | hle
    · exact ⟨x, by simp, (max_eq_right hle).symm⟩
    · exact ⟨last, List.mem_append_left _ hlast, by rw [he, max_eq_left hle]⟩
  · rcases List.mem_append.mp hs with hs | hs
    · exact (hbelow s hs).trans (le_max_left _ _)
    · rw [List.mem_singleton.mp hs]
      exact le_max_right _ _

theorem fst_le_of_toLex_le {s x : α × α} (h : toLex s ≤ toLex x) : s.1 ≤ x.1 := by
  rcases Prod.Lex.le_iff.mp h with hlt | ⟨heq, -⟩
  · exact le_of_lt hlt
  · exact le_of_eq heq

/-- A span that starts before the end of an earlier one overlaps it. -/
theorem overlap_of_lt {s x : α × α} (h : toLex s ≤ toLex x) (hx : x.1 ≤ x.2) (hlt : x.1 < s.2) : Overlap s x := by
  refine ⟨?_, hlt⟩
  rcases Prod.Lex.le_iff.mp h with hbefore | ⟨heq, hle⟩
  · exact lt_of_lt_of_le hbefore hx
  · exact lt_of_eq_of_lt heq (lt_of_lt_of_le hlt hle)

/-- **One span more joins the last cluster or opens the next.** -/
theorem Gathered.step {spans : List (α × α)} {clusters : List (List (α × α))} {ends : List α}
    (h : Gathered spans clusters ends) {x : α × α} (hx : x.1 ≤ x.2)
    (hsorted : ∀ s ∈ spans, toLex s ≤ toLex x) :
    ∃ clusters', Gathered (spans ++ [x]) clusters' (join ends x) := by
  have hbehind {c : List (α × α)} (hc : c ∈ clusters) {s : α × α} (hs : s ∈ c) : toLex s ≤ toLex x := by
    refine hsorted s ?_
    rw [← h.order]
    exact List.mem_flatten.mpr ⟨c, List.mem_reverse.mpr hc, hs⟩
  have hsingle : [x] ≠ [] ∧ Linked [x] := ⟨List.cons_ne_nil _ _, linked_singleton x⟩
  obtain ⟨horder, hclosed, hlinked, hascending⟩ := h
  cases hclosed with
  | nil =>
    refine ⟨[[x]], ?_, .cons (closes_singleton x) .nil, List.forall_mem_singleton.mpr hsingle,
      List.pairwise_singleton _ _⟩
    rw [← horder]
    rfl
  | @cons c previous cs rest hclose hrest =>
    obtain ⟨⟨last, hlast, hprevious⟩, hbelow⟩ := hclose
    obtain ⟨hbefore, hascending⟩ := List.pairwise_cons.mp hascending
    obtain ⟨hc, hlinked⟩ := List.forall_mem_cons.mp hlinked
    have hlastBehind := hbehind List.mem_cons_self hlast
    rw [List.reverse_cons, List.flatten_append, List.flatten_singleton] at horder
    -- what is before the last cluster ends before its spans start, and so before this one does
    have hpast : ∀ d ∈ cs, ∀ s ∈ d, s.2 ≤ x.1 := fun d hd s hs =>
      (hbefore d hd s hs last hlast).trans (fst_le_of_toLex_le hlastBehind)
    rw [join]
    split
    · next hjoin =>
      have hover : Overlap last x := overlap_of_lt hlastBehind hx (hprevious ▸ hjoin)
      refine ⟨(c ++ [x]) :: cs, ?_, .cons (Closes.concat ⟨⟨last, hlast, hprevious⟩, hbelow⟩ x) hrest, ?_, ?_⟩
      · rw [← horder, List.reverse_cons, List.flatten_append, List.flatten_singleton, List.append_assoc]
      · exact List.forall_mem_cons.mpr ⟨⟨by simp, hc.2.concat hlast hover⟩, hlinked⟩
      · refine List.pairwise_cons.mpr ⟨fun d hd s hs t ht => ?_, hascending⟩
        rcases List.mem_append.mp ht with ht | ht
        · exact hbefore d hd s hs t ht
        · rw [List.mem_singleton.mp ht]
          exact hpast d hd s hs
    · next hapart =>
      refine ⟨[x] :: c :: cs, ?_, .cons (closes_singleton x) (.cons ⟨⟨last, hlast, hprevious⟩, hbelow⟩ hrest), ?_, ?_⟩
      · rw [← horder, List.reverse_cons, List.reverse_cons, List.flatten_append, List.flatten_append,
          List.flatten_singleton, List.flatten_singleton]
      · exact List.forall_mem_cons.mpr ⟨hsingle, List.forall_mem_cons.mpr ⟨hc, hlinked⟩⟩
      · refine List.pairwise_cons.mpr ⟨fun d hd s hs t ht => ?_, List.pairwise_cons.mpr ⟨hbefore, hascending⟩⟩
        rw [List.mem_singleton.mp ht]
        rcases List.mem_cons.mp hd with rfl | hd
        · exact (hbelow s hs).trans (not_lt.mp hapart)
        · exact hpast d hd s hs

/-- **Joining spans in order gathers their clusters.** -/
theorem exists_gathered {spans : List (α × α)} (hspans : ∀ s ∈ spans, s.1 ≤ s.2)
    (hsorted : spans.Pairwise fun s t => toLex s ≤ toLex t) :
    ∃ clusters, Gathered spans clusters (joinAll spans) := by
  induction spans using List.reverseRecOn with
  | nil => exact ⟨[], rfl, .nil, nofun, .nil⟩
  | append_singleton spans x ih =>
    obtain ⟨hbefore, -, hlast⟩ := List.pairwise_append.mp hsorted
    obtain ⟨clusters, hgathered⟩ := ih (fun s hs => hspans s (List.mem_append_left _ hs)) hbefore
    rw [joinAll, List.foldl_concat]
    exact hgathered.step (hspans x (by simp)) fun s hs => hlast s hs x (by simp)

/-- **The ends joined are the ends of the clusters**, in ascending order. -/
theorem exists_clusters {spans : List (α × α)} (hspans : ∀ s ∈ spans, s.1 ≤ s.2)
    (hsorted : spans.Pairwise fun s t => toLex s ≤ toLex t) :
    ∃ clusters, Clustering spans clusters ∧ List.Forall₂ Closes clusters (joinAll spans).reverse := by
  obtain ⟨clusters, horder, hclosed, hlinked, hascending⟩ := exists_gathered hspans hsorted
  refine ⟨clusters.reverse, ⟨horder ▸ List.Perm.refl _, fun c hc => hlinked c (List.mem_reverse.mp hc),
    List.pairwise_reverse.mpr hascending⟩, List.rel_reverse hclosed⟩

/-- **No span straddles the end of a cluster.** -/
theorem Clustering.not_straddling {spans : List (α × α)} {clusters : List (List (α × α))}
    (h : Clustering spans clusters) (hspans : ∀ s ∈ spans, s.1 ≤ s.2) {k : ℕ} {c : List (α × α)} {e : α}
    (hc : clusters[k]? = some c) (he : Closes c e) {s : α × α} (hs : s ∈ spans) : ¬(s.1 < e ∧ e < s.2) := by
  rintro ⟨hstart, hend⟩
  obtain ⟨⟨last, hlast, rfl⟩, hbelow⟩ := he
  obtain ⟨hk, hck⟩ := List.getElem?_eq_some_iff.mp hc
  obtain ⟨d, hd, hsd⟩ := List.mem_flatten.mp (h.parts.mem_iff.mpr hs)
  obtain ⟨j, hj, rfl⟩ := List.mem_iff_getElem.mp hd
  have hlastspan : last ∈ spans := h.parts.mem_iff.mp (List.mem_flatten.mpr ⟨c, List.mem_of_getElem? hc, hlast⟩)
  rcases lt_trichotomy j k with hjk | rfl | hkj
  · have hle := List.pairwise_iff_getElem.mp h.ascending j k hj hk hjk s hsd last (hck ▸ hlast)
    exact absurd (hle.trans (hspans last hlastspan)) (not_le.mpr hend)
  · exact absurd (hbelow s (hck ▸ hsd)) (not_le.mpr hend)
  · have hle := List.pairwise_iff_getElem.mp h.ascending k j hk hj hkj last (hck ▸ hlast) s hsd
    exact absurd hle (not_le.mpr hstart)

end Clusters
