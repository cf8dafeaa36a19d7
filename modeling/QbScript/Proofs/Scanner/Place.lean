import QbScript.Proofs.Scanner.Machine

/-!
# Places in the bytes of a text

A scanner that stands between two characters has the bytes of the remaining ones before it. What it
looks for there are characters of one byte, so it finds them where they stand in the text, and after
it has passed some it stands between two characters again.
-/

set_option autoImplicit false

namespace QbScript

namespace Scanner

open Utf8

/-- The bytes are those of a text of which the characters `cs` are from the offset on. -/
def At (bs : List UInt8) (off : Nat) (cs : List Char) : Prop :=
  ∃ before, bs = encode (before ++ cs) ∧ off = size before

variable {bs : List UInt8} {off : Nat} {c k : Char} {cs w : List Char} {p : Char → Bool}

theorem drop_length_takeWhile (p : Char → Bool) (cs : List Char) :
    cs.drop (cs.takeWhile p).length = cs.dropWhile p := by
  have h := @List.drop_left _ (cs.takeWhile p) (cs.dropWhile p)
  rwa [List.takeWhile_append_dropWhile] at h

theorem at_start (cs : List Char) : At (encode cs) 0 cs := ⟨[], rfl, rfl⟩

namespace At

theorem length_eq (h : At bs off cs) : bs.length = off + size cs := by
  obtain ⟨before, rfl, rfl⟩ := h
  rw [length_encode, size_append]

theorem le_length (h : At bs off cs) : off ≤ bs.length := by
  have := h.length_eq
  omega

theorem isBoundary (h : At bs off cs) : isBoundary bs off := by
  obtain ⟨before, rfl, rfl⟩ := h
  exact isBoundary_encode_append before cs

theorem drop_eq (h : At bs off cs) : bs.drop off = encode cs := by
  obtain ⟨before, rfl, rfl⟩ := h
  rw [encode_append, ← length_encode before, List.drop_left]

theorem tail_eq (h : At bs off cs) : tail bs off = .ok (encode cs) := by
  rw [tail, if_pos h.le_length, h.drop_eq]

theorem append (h : At bs off (w ++ cs)) : At bs (off + size w) cs := by
  obtain ⟨before, rfl, rfl⟩ := h
  exact ⟨before ++ w, by rw [List.append_assoc], by rw [size_append]⟩

theorem drop (h : At bs off cs) (n : Nat) : At bs (off + size (cs.take n)) (cs.drop n) :=
  append (by rwa [List.take_append_drop])

theorem next (h : At bs off (c :: cs)) (hc : c.toNat < 0x80) : At bs (off + 1) cs := by
  simpa only [size_cons, size_nil, utf8Size_of_lt hc] using append (w := [c]) h

theorem text_eq (h : At bs off (w ++ cs)) : text bs off (off + size w) = .ok (String.ofList w) := by
  obtain ⟨before, rfl, rfl⟩ := h
  rw [text, slice?_encode]

/-! ### Looking at one byte -/

theorem peek?_nil (h : At bs off []) : peek? bs off = none := by
  have hl : bs.length ≤ off := h.length_eq.le
  rw [peek?, List.getElem?_eq_none hl, Option.map_none]

theorem exists_peek? (h : At bs off (c :: cs)) :
    ∃ d, peek? bs off = some d ∧ (c.toNat < 0x80 ∧ d = c ∨ 0x80 ≤ c.toNat ∧ 0x80 ≤ d.toNat) := by
  obtain ⟨b, tail, he, -⟩ := exists_utf8EncodeChar c
  have hb : bs[off]? = some b := by
    have hd := congrArg List.head? h.drop_eq
    rwa [List.head?_drop, encode_cons, he, List.cons_append, List.head?_cons] at hd
  have hmem := eq_or_le_of_mem_utf8EncodeChar (he ▸ List.mem_cons_self : b ∈ _)
  exact ⟨byteChar b, by rw [peek?, hb, Option.map_some], hmem⟩

theorem peek?_cons (h : At bs off (c :: cs)) (hc : c.toNat < 0x80) : peek? bs off = some c := by
  obtain ⟨d, hd, ⟨-, rfl⟩ | ⟨hc', -⟩⟩ := h.exists_peek?
  · exact hd
  · omega

/-- What is looked for and is found is the next character. -/
theorem exists_of_peek? (h : At bs off cs) (hp : peek? bs off = some k) (hk : k.toNat < 0x80) :
    ∃ rest, cs = k :: rest ∧ At bs (off + 1) rest := by
  cases cs with
  | nil => rw [h.peek?_nil] at hp; cases hp
  | cons c rest =>
    obtain ⟨d, hd, ⟨hc, rfl⟩ | ⟨-, hd'⟩⟩ := h.exists_peek?
    · obtain rfl := Option.some.inj (hd.symm.trans hp)
      exact ⟨rest, rfl, h.next hc⟩
    · obtain rfl := Option.some.inj (hd.symm.trans hp)
      omega

theorem peek?_eq_some_iff (h : At bs off cs) (hk : k.toNat < 0x80) :
    peek? bs off = some k ↔ cs.head? = some k := by
  refine ⟨fun hp => ?_, fun hc => ?_⟩
  · obtain ⟨rest, rfl, -⟩ := h.exists_of_peek? hp hk
    rfl
  · obtain ⟨rest, rfl⟩ := List.head?_eq_some_iff.mp hc
    exact h.peek?_cons hk

theorem peek?_ne (h : At bs off cs) (hk : k.toNat < 0x80) (hne : ∀ rest, cs = k :: rest → False) :
    peek? bs off ≠ some k := by
  intro hp
  obtain ⟨rest, he, -⟩ := h.exists_of_peek? hp hk
  exact hne rest he

theorem any_peek? (h : At bs off cs) (hp : ∀ c, p c → c.toNat < 0x80) :
    (peek? bs off).any p = cs.head?.any p := by
  cases cs with
  | nil => rw [h.peek?_nil]; rfl
  | cons c rest =>
    obtain ⟨d, hd, ⟨-, rfl⟩ | ⟨hc, hd'⟩⟩ := h.exists_peek?
    · rw [hd]; rfl
    · have hfalse : ∀ e : Char, 0x80 ≤ e.toNat → p e = false := fun e he =>
        Bool.eq_false_iff.mpr fun hpe => absurd (hp e hpe) (Nat.not_lt.mpr he)
      rw [hd, List.head?_cons, Option.any_some, Option.any_some, hfalse d hd', hfalse c hc]

/-! ### Passing many bytes -/

theorem pass_eq (h : At bs off cs) (hp : IsUniform p) :
    pass bs p off = off + size (cs.takeWhile p) := by
  rw [pass, h.drop_eq, takeWhile_encode hp, length_encode]

theorem pass (h : At bs off cs) (hp : IsUniform p) :
    At bs (pass bs p off) (cs.drop (cs.takeWhile p).length) := by
  rw [h.pass_eq hp]
  have ht := h.drop (cs.takeWhile p).length
  rwa [← List.prefix_iff_eq_take.mp (List.takeWhile_prefix p)] at ht

theorem text_pass (h : At bs off cs) (hp : IsUniform p) :
    text bs off (Scanner.pass bs p off) = .ok (String.ofList (cs.takeWhile p)) := by
  rw [h.pass_eq hp]
  have hsplit : At bs off (cs.takeWhile p ++ cs.dropWhile p) := by
    rwa [List.takeWhile_append_dropWhile]
  exact hsplit.text_eq

theorem pass_eq_of_lt (h : At bs off cs) (hp : ∀ c, p c → c.toNat < 0x80) :
    Scanner.pass bs p off = off + (cs.takeWhile p).length := by
  rw [h.pass_eq (isUniform_of_lt hp),
    size_of_lt fun c hc => hp c (List.mem_takeWhile_imp hc)]

theorem digits_eq (h : At bs off cs) (hp : ∀ c, p c → c.toNat < 0x80) :
    digits bs off (Scanner.pass bs p off) = cs.takeWhile p := by
  have hlt : ∀ c ∈ cs.takeWhile p, c.toNat < 0x80 := fun c hc => hp c (List.mem_takeWhile_imp hc)
  have htake : (encode cs).take (size (cs.takeWhile p)) = encode (cs.takeWhile p) := by
    rw [← List.takeWhile_append_dropWhile (p := p) (l := cs), encode_append,
      List.takeWhile_append_dropWhile, ← length_encode, List.take_left]
  rw [digits, h.pass_eq (isUniform_of_lt hp), List.extract_eq_take_drop, Nat.add_sub_cancel_left,
    h.drop_eq, htake, map_byteChar_encode hlt]

end At

end Scanner

end QbScript
