import QueryEngine.Library.Numerals

/-!
# Library/SelfDelimiting — codes that say where they end

A code is **self-delimiting** on values that are alike when its bytes, whatever follows them, decide
both the value and what follows.  Such codes may be written one after another without a separator:
`flatMap_injective`, what makes a serialized tuple a key.  A code of one length has the property.
-/

open Numerals

/-- A code whose bytes, before any others, decide the value and where it ends, among values that are
alike. -/
def SelfDelimiting {α β : Type*} (alike : α → α → Prop) (code : α → List β) : Prop :=
  ∀ ⦃a b : α⦄ ⦃x y : List β⦄, alike a b → code a ++ x = code b ++ y → a = b ∧ x = y

namespace SelfDelimiting

variable {α β : Type*} {alike : α → α → Prop} {code : α → List β}

/-- A code of one length is self-delimiting when it tells values apart. -/
theorem of_length (hlen : ∀ ⦃a b⦄, alike a b → (code a).length = (code b).length)
    (hinj : ∀ ⦃a b⦄, alike a b → code a = code b → a = b) : SelfDelimiting alike code := by
  intro a b x y hab e
  obtain ⟨hcode, hrest⟩ := List.append_inj e (hlen hab)
  exact ⟨hinj hab hcode, hrest⟩

/-- **Codes written one after another** decide every value in turn, and what follows. -/
theorem flatMap (h : SelfDelimiting alike code) : ∀ {as bs : List α} {x y : List β},
    List.Forall₂ alike as bs → as.flatMap code ++ x = bs.flatMap code ++ y → as = bs ∧ x = y
  | _, _, x, y, .nil, e => ⟨rfl, e⟩
  | a :: as, b :: bs, x, y, .cons hab hrest, e => by
    rw [List.flatMap_cons, List.flatMap_cons, List.append_assoc, List.append_assoc] at e
    obtain ⟨hhead, htail⟩ := h hab e
    obtain ⟨hrest, hxy⟩ := flatMap h hrest htail
    exact ⟨by rw [hhead, hrest], hxy⟩

/-- **A tuple of codes is a key**: it tells tuples of alike values apart. -/
theorem flatMap_injective (h : SelfDelimiting alike code) {as bs : List α}
    (hab : List.Forall₂ alike as bs) (e : as.flatMap code = bs.flatMap code) : as = bs :=
  (h.flatMap hab (by rw [e] : as.flatMap code ++ [] = bs.flatMap code ++ [])).1

end SelfDelimiting

namespace Numerals

/-- A length below the header's range, written in four bytes, decides the length. -/
theorem lengthHeader {m n : ℕ} (hm : m < 2 ^ 32) (hn : n < 2 ^ 32) {x y : List UInt8}
    (e : leBytes 4 m ++ x = leBytes 4 n ++ y) : m = n ∧ x = y := by
  obtain ⟨hlen, hrest⟩ := List.append_inj e (by simp)
  exact ⟨(leBytes_inj (by omega) (by omega)).mp hlen, hrest⟩

/-- The eight bytes of a word, least significant first. -/
def wordLe (w : BitVec 64) : List UInt8 := leBytes 8 w.toNat

/-- The eight bytes of a word, most significant first. -/
def wordBe (w : BitVec 64) : List UInt8 := beBytes 8 w.toNat

@[simp] theorem length_wordLe (w : BitVec 64) : (wordLe w).length = 8 := length_leBytes 8 _

@[simp] theorem length_wordBe (w : BitVec 64) : (wordBe w).length = 8 := length_beBytes 8 _

theorem wordLe_injective : Function.Injective wordLe := by
  intro v w h
  exact BitVec.eq_of_toNat_eq ((leBytes_inj v.isLt w.isLt).mp h)

theorem wordBe_injective : Function.Injective wordBe := by
  intro v w h
  exact wordLe_injective (List.reverse_injective h)

/-- Words written one after another, at eight bytes each, take eight bytes each. -/
theorem length_flatMap_word {word : BitVec 64 → List UInt8} (h : ∀ w, (word w).length = 8)
    (ws : List (BitVec 64)) : (ws.flatMap word).length = 8 * ws.length := by
  induction ws with
  | nil => rfl
  | cons w ws ih =>
    rw [List.flatMap_cons, List.length_append, h, ih, List.length_cons]
    omega

/-- Words of eight bytes, one after another, are told apart. -/
theorem flatMap_word_injective {word : BitVec 64 → List UInt8} (h : ∀ w, (word w).length = 8)
    (hinj : Function.Injective word) :
    Function.Injective fun ws : List (BitVec 64) => ws.flatMap word := by
  intro vs ws e
  have hcode : SelfDelimiting (fun _ _ : BitVec 64 => True) word :=
    .of_length (fun v w _ => (h v).trans (h w).symm) fun v w _ e => hinj e
  have hlen : vs.length = ws.length := by
    have e' := congrArg List.length e
    simp only [length_flatMap_word h] at e'
    omega
  exact hcode.flatMap_injective (List.forall₂_iff_get.mpr ⟨hlen, fun _ _ _ => trivial⟩) e

/-! ## Words in a run of bytes -/

/-- A run of bytes as the words of eight it is made of; a remainder is dropped. -/
def asChunks : List UInt8 → List (List UInt8)
  | b₀ :: b₁ :: b₂ :: b₃ :: b₄ :: b₅ :: b₆ :: b₇ :: rest =>
    [b₀, b₁, b₂, b₃, b₄, b₅, b₆, b₇] :: asChunks rest
  | _ => []

/-- A chunk in front of a run. -/
theorem asChunks_append {chunk : List UInt8} (h : chunk.length = 8) (rest : List UInt8) :
    asChunks (chunk ++ rest) = chunk :: asChunks rest := by
  match chunk, h with
  | [_, _, _, _, _, _, _, _], _ => rfl

/-- A run of whole chunks. -/
theorem asChunks_flatten : ∀ {chunks : List (List UInt8)}, (∀ c ∈ chunks, c.length = 8) →
    asChunks chunks.flatten = chunks
  | [], _ => rfl
  | c :: chunks, h => by
    rw [List.flatten_cons, asChunks_append (h c List.mem_cons_self),
      asChunks_flatten fun c' hc' => h c' (List.mem_cons_of_mem _ hc')]

end Numerals
