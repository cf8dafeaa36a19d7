import QbScript.Proofs.Listing.Names
import QbScript.Proofs.Source.LetterCase

/-!
# Integers survive

A text of digits, however many, is read as the one integer of 32 bits that has the same remainder as
the number that the digits stand for, with its sign. So every integer is read from what is printed
for it.
-/

set_option autoImplicit false

namespace QbScript

namespace Numeral

def figures : List Char :=
  ['0', '1', '2', '3', '4', '5', '6', '7', '8', '9', 'a', 'b', 'c', 'd', 'e', 'f']

/-- The text has at least one digit of the base, and nothing else; letters may be of either case. -/
def IsNumeral (base : Nat) (cs : List Char) : Prop :=
  cs ≠ [] ∧ ∀ c ∈ cs, c.toLower ∈ figures.take base

instance (base : Nat) (cs : List Char) : Decidable (IsNumeral base cs) :=
  @instDecidableAnd _ _ _ (List.decidableBAll _ _)

def value (base : Nat) (cs : List Char) : Nat :=
  Nat.ofDigits base (cs.reverse.map fun c => figures.idxOf c.toLower)

variable {base : Nat} {cs : List Char}

theorem IsNumeral.isDigit (h : IsNumeral 10 cs) : ∀ c ∈ cs, c.isDigit := by
  have hall : (figures.take 10).all Char.isDigit := by decide
  intro c hc
  rw [← isDigit_toLower]
  exact List.all_eq_true.mp hall _ (h.2 c hc)

theorem isHexDigit_of_mem_figures {c : Char} (h : c.toLower ∈ figures) : isHexDigit c := by
  have hall : figures.all isHexDigit := by decide
  rw [← isHexDigit_toLower]
  exact List.all_eq_true.mp hall _ h

theorem IsNumeral.isHexDigit (h : IsNumeral base cs) : ∀ c ∈ cs, isHexDigit c := fun c hc =>
  isHexDigit_of_mem_figures (List.mem_of_mem_take (h.2 c hc))

theorem digitValue_eq_idxOf {c : Char} (h : c.toLower ∈ figures) :
    digitValue c = figures.idxOf c.toLower := by
  have hall : figures.all fun d => digitValue d == figures.idxOf d := by decide
  rw [← digitValue_toLower (isHexDigit_of_mem_figures h)]
  exact beq_iff_eq.mp (List.all_eq_true.mp hall _ h)

theorem numberOfDigits_eq_value (h : ∀ c ∈ cs, c.toLower ∈ figures) :
    numberOfDigits base cs = value base cs := by
  -- The last digit is the first of the sum, and the last that is taken in.
  induction cs using List.reverseRecOn with
  | nil => rfl
  | append_singleton cs c ih =>
    have hc := digitValue_eq_idxOf (h c (by simp))
    have hcs := ih fun d hd => h d (List.mem_append_left _ hd)
    rw [numberOfDigits_concat, hcs, hc, value, value, List.reverse_concat, List.map_cons,
      Nat.ofDigits_cons, Nat.add_comm]

theorem IsNumeral.numberOfDigits (h : IsNumeral base cs) :
    numberOfDigits base cs = value base cs :=
  numberOfDigits_eq_value fun c hc => List.mem_of_mem_take (h.2 c hc)

/-- What may stand before the digits of a number, and the factor that it stands for. -/
inductive IsSign : String → Int → Prop
  | none : IsSign "" 1
  | plus : IsSign "+" 1
  | minus : IsSign "-" (-1)

theorem isBoundary_nil : IsBoundary [] := nofun

theorem read_plus (h : cs.head?.any Char.isDigit) :
    Cursor.read true '+' cs = Literal.number false cs := by
  unfold Cursor.read
  rw [if_neg (by decide), if_neg (by decide), if_pos ⟨Or.inr rfl, rfl, h⟩]
  rfl

/-- A number is read to its end behind any sign. -/
theorem readsOne_of_number {sign : String} {factor : Int} {token : Bool → Token} {text : String}
    (hs : IsSign sign factor) (hd : text.toList.head?.any Char.isDigit)
    (hn : ∀ negative, Literal.number negative text.toList =
      .ok (token negative) text.toList.length) :
    ReadsOne (sign ++ text) (token (factor < 0)) := by
  apply readsOne_of_frontReads
  obtain ⟨c, cs, hcs⟩ : ∃ c cs, text.toList = c :: cs := by
    cases htext : text.toList with
    | nil =>
      rw [htext] at hd
      cases hd
    | cons c cs => exact ⟨c, cs, rfl⟩
  rw [String.toList_append, hcs]
  rw [hcs] at hd hn
  have hc : c.isDigit := hd
  cases hs with
  | none =>
    refine ⟨c, cs, rfl, Blank.front_plain (isPlain_of_isDigit hc) _, ?_⟩
    rw [List.append_nil]
    exact Cursor.read_digit hc (hn false)
  | plus =>
    refine ⟨'+', c :: cs, rfl, Blank.front_other (by decide) (by decide) (by decide) _, ?_⟩
    rw [List.append_nil, read_plus hd]
    exact hn false
  | minus =>
    refine ⟨'-', c :: cs, rfl, Blank.front_plain (Or.inr (Or.inr rfl)) _, ?_⟩
    rw [List.append_nil, Cursor.read_minus hd]
    exact hn true

theorem toInt_ofInt_word (i : Int) : (Int32.ofInt i).toInt = i.bmod 0x100000000 :=
  Int32.toInt_ofInt ..

/-- Decimal digits behind a sign, modulo 2 ^ 32. -/
theorem readsOne_decimal {sign : String} {factor : Int} (hs : IsSign sign factor)
    (h : IsNumeral 10 cs) :
    ∃ v : Int32, v.toInt = (factor * value 10 cs).bmod 0x100000000 ∧
      ReadsOne (sign ++ String.ofList cs) (.integer v) := by
  have hn : ∀ negative, Literal.number negative (String.ofList cs).toList =
      .ok (.integer (Int32.ofInt (if negative then -(value 10 cs : Int) else value 10 cs)))
        (String.ofList cs).toList.length := by
    intro negative
    have hread := @Literal.decimalNumber_digits negative cs [] h.isDigit isBoundary_nil
    rw [← Literal.number_digits h.isDigit isBoundary_nil.ne_mark, List.append_nil,
      h.numberOfDigits] at hread
    rw [String.toList_ofList]
    exact hread
  have hd : (String.ofList cs).toList.head?.any Char.isDigit := by
    obtain ⟨c, ds, rfl⟩ := List.exists_cons_of_ne_nil h.1
    rw [String.toList_ofList]
    exact h.isDigit c List.mem_cons_self
  refine ⟨_, ?_, readsOne_of_number hs hd hn⟩
  rw [toInt_ofInt_word]
  cases hs <;> simp

/-- Digits of base sixteen behind their mark and a sign, modulo 2 ^ 32. -/
theorem readsOne_hex {sign mark : String} {factor : Int} (hs : IsSign sign factor)
    (hm : mark = "0x" ∨ mark = "0X") (h : IsNumeral 16 cs) :
    ∃ v : UInt32, (v.toNat : Int) = factor * value 16 cs % 0x100000000 ∧
      ReadsOne (sign ++ (mark ++ String.ofList cs)) (.hexInteger v) := by
  have hmark : mark.toList = ['0', 'x'] ∨ mark.toList = ['0', 'X'] := by
    rcases hm with rfl | rfl
    · exact Or.inl rfl
    · exact Or.inr rfl
  have hn : ∀ negative, Literal.number negative (mark ++ String.ofList cs).toList =
      .ok (.hexInteger (if negative then -UInt32.ofNat (value 16 cs)
        else UInt32.ofNat (value 16 cs))) (mark ++ String.ofList cs).toList.length := by
    intro negative
    have hread := @Literal.number_hex negative cs [] h.isHexDigit h.1 isBoundary_nil
    rw [List.append_nil, h.numberOfDigits] at hread
    rw [String.toList_append, String.toList_ofList]
    -- Both marks are read in the same way.
    rcases hmark with hmark | hmark
    all_goals
      rw [hmark, List.length_append]
      exact hread
  have hd : (mark ++ String.ofList cs).toList.head?.any Char.isDigit := by
    rw [String.toList_append]
    rcases hmark with hmark | hmark
    all_goals
      rw [hmark]
      rfl
  refine ⟨_, ?_, readsOne_of_number hs hd hn⟩
  cases hs with
  | none => simp
  | plus => simp
  | minus =>
    rw [if_pos (by decide), UInt32.toNat_neg, UInt32.toNat_ofNat', UInt32.size]
    omega

end Numeral

open Numeral

/-- Integers are read modulo 2 ^ 32 from digits of any number, in both bases and behind any sign,
and every integer of 32 bits is read from its own text. -/
theorem integers_survive :
    (∀ sign factor, IsSign sign factor → ∀ ds, IsNumeral 10 ds →
      ∃ v : Int32, v.toInt = (factor * value 10 ds).bmod 0x100000000 ∧
        ReadsOne (sign ++ String.ofList ds) (.integer v)) ∧
    (∀ sign factor, IsSign sign factor → ∀ mark, mark = "0x" ∨ mark = "0X" →
      ∀ ds, IsNumeral 16 ds →
        ∃ v : UInt32, (v.toNat : Int) = factor * value 16 ds % 0x100000000 ∧
          ReadsOne (sign ++ (mark ++ String.ofList ds)) (.hexInteger v)) ∧
    (∀ v : Int32, ReadsOne (Numeral.signed v.toInt) (.integer v)) ∧
    ∀ v : UInt32, ReadsOne ("0x" ++ Numeral.hex v.toNat) (.hexInteger v) := by
  refine ⟨fun _ _ hs _ h => readsOne_decimal hs h, fun _ _ hs _ hm _ h => readsOne_hex hs hm h,
    fun v => ?_, fun v => ?_⟩
  · exact readsOne_of_frontReads (frontReads_signed v isBoundary_nil)
  · exact readsOne_of_frontReads (frontReads_hex v isBoundary_nil)

/-- The least integer by way of a number that is too large for it, and a hexadecimal number of
more than eight digits in mixed case. -/
theorem integers_survive_wrapped :
    (∃ v : Int32, v.toInt = -0x80000000 ∧ ReadsOne ("-" ++ "006442450944") (.integer v)) ∧
    ∃ v : UInt32, v.toNat = 0xfffffff6 ∧ ReadsOne ("-" ++ ("0X" ++ "10000000A")) (.hexInteger v) := by
  obtain ⟨hdecimal, hhex, -⟩ := integers_survive
  obtain ⟨v, hv, hread⟩ := hdecimal _ _ .minus "006442450944".toList (by decide +kernel)
  obtain ⟨w, hw, hread'⟩ := hhex _ _ .minus _ (Or.inr rfl) "10000000A".toList (by decide +kernel)
  rw [String.ofList_toList] at hread hread'
  refine ⟨⟨v, hv.trans (by decide +kernel), hread⟩, w, ?_, hread'⟩
  rw [show value 16 "10000000A".toList = 0x10000000a by decide +kernel] at hw
  omega

end QbScript
