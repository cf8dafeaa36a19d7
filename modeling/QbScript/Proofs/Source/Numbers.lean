import QbScript.Number.Shortest
import QbScript.Proofs.Source.Spells
import QbScript.Proofs.Text.Numeral

/-!
# Numbers read back

The numerals of integers are read as these integers. The text of a float that is read as the float
when it stands alone is also read as it before other text.
-/

set_option autoImplicit false

namespace QbScript

/-- A name or a number that ends here does not go on. -/
def IsBoundary (rest : List Char) : Prop :=
  ∀ c ∈ rest.head?, isNameChar c = false ∧ c ≠ '.'

theorem isNameChar_of_isDigit {c : Char} (h : c.isDigit) : isNameChar c := by
  simp [isNameChar, Char.isAlphanum, h]

theorem isNameChar_of_isHexDigit {c : Char} (h : isHexDigit c) : isNameChar c := by
  simp only [isHexDigit, Bool.or_eq_true, Bool.and_eq_true, decide_eq_true_eq] at h
  simp only [isNameChar, Char.isAlphanum, Char.isAlpha, Char.isUpper, Char.isLower,
    Bool.or_eq_true, Bool.and_eq_true, decide_eq_true_eq, UInt32.le_iff_toNat_le]
  rcases h with (h | ⟨h1, h2⟩) | ⟨h1, h2⟩
  · tauto
  · have h1 : 97 ≤ c.val.toNat := h1
    have h2 : c.val.toNat ≤ 102 := h2
    refine Or.inl (Or.inl (Or.inr ⟨h1, ?_⟩))
    exact Nat.le_trans h2 (by decide)
  · have h1 : 65 ≤ c.val.toNat := h1
    have h2 : c.val.toNat ≤ 70 := h2
    refine Or.inl (Or.inl (Or.inl ⟨h1, ?_⟩))
    exact Nat.le_trans h2 (by decide)

theorem lt_of_isNameChar {c : Char} (h : isNameChar c) : c.toNat < 0x80 := by
  simp only [isNameChar, Char.isAlphanum, Char.isAlpha, Char.isUpper, Char.isLower, Char.isDigit,
    Bool.or_eq_true, Bool.and_eq_true, decide_eq_true_eq, UInt32.le_iff_toNat_le] at h
  show c.val.toNat < 0x80
  rcases h with ((⟨-, h⟩ | ⟨-, h⟩) | ⟨-, h⟩) | rfl
  · exact lt_of_le_of_lt h (by decide)
  · exact lt_of_le_of_lt h (by decide)
  · exact lt_of_le_of_lt h (by decide)
  · decide

theorem takeWhile_append_stop {p : Char → Bool} {cs rest : List Char} (h : ∀ c ∈ cs, p c)
    (hr : ∀ c ∈ rest.head?, p c = false) : (cs ++ rest).takeWhile p = cs := by
  rw [List.takeWhile_append_of_pos h]
  cases rest with
  | nil => simp
  | cons d rest =>
    have hd := hr d rfl
    simp [hd]

theorem Blank.front_other {c : Char} (h1 : c ≠ '/') (h2 : c ≠ '\\') (h3 : isBlank c = false)
    (cs : List Char) : front (c :: cs) = .other := by
  unfold front
  split <;> simp_all

namespace IsBoundary

variable {rest : List Char}

theorem not_isDigit (h : IsBoundary rest) : ∀ c ∈ rest.head?, c.isDigit = false := by
  intro c hc
  apply Bool.eq_false_iff.mpr
  intro hd
  have hn := (h c hc).1
  rw [isNameChar_of_isDigit hd] at hn
  cases hn

theorem not_isHexDigit (h : IsBoundary rest) : ∀ c ∈ rest.head?, isHexDigit c = false := by
  intro c hc
  apply Bool.eq_false_iff.mpr
  intro hd
  have hn := (h c hc).1
  rw [isNameChar_of_isHexDigit hd] at hn
  cases hn

theorem any_eq_false (h : IsBoundary rest) : rest.head?.any isNameChar = false := by
  cases hr : rest.head? with
  | none => rfl
  | some c => exact (h c hr).1

theorem ne_mark (h : IsBoundary rest) :
    ∀ c ∈ rest.head?, c ≠ '0' ∧ c ≠ 'x' ∧ c ≠ 'X' := by
  intro c hc
  have hn := (h c hc).1
  refine ⟨?_, ?_, ?_⟩
  all_goals
    rintro rfl
    revert hn
    decide

end IsBoundary

namespace Literal

variable {negative : Bool} {ds fs rest : List Char}

theorem closeNumber_eq_ok (hr : IsBoundary rest) (t : Token) (n : Nat) :
    closeNumber t rest n = .ok t n := by
  rw [closeNumber, hr.any_eq_false]
  rfl

theorem fractionDigits_boundary (hr : IsBoundary rest) : fractionDigits rest = [] := by
  unfold fractionDigits
  split
  · exact absurd rfl (hr '.' rfl).2
  · rfl

theorem decimalNumber_digits (hd : ∀ c ∈ ds, c.isDigit) (hr : IsBoundary rest) :
    decimalNumber negative (ds ++ rest) = .ok (.integer (Int32.ofInt
      (if negative then -(numberOfDigits 10 ds : Int) else numberOfDigits 10 ds))) ds.length := by
  have hw := takeWhile_append_stop hd hr.not_isDigit
  have hv : (wordOfDigits 10 ds).toInt32 = Int32.ofInt (numberOfDigits 10 ds) := by
    rw [show (10 : UInt32) = UInt32.ofNat 10 from rfl, wordOfDigits_ofNat, Int32.ofInt_eq_ofNat]
    rfl
  unfold decimalNumber
  simp only [hw, List.drop_left, fractionDigits_boundary hr, List.isEmpty_nil, if_true, hv]
  rw [closeNumber_eq_ok hr]
  cases negative with
  | false => rfl
  | true => rw [if_pos rfl, if_pos rfl, Int32.ofInt_neg]

theorem decimalNumber_point (hd : ∀ c ∈ ds, c.isDigit) (hf : ∀ c ∈ fs, c.isDigit) (hne : fs ≠ [])
    (hr : IsBoundary rest) :
    decimalNumber negative (ds ++ '.' :: (fs ++ rest)) =
      .ok (.float (float negative ds fs)) (ds.length + 1 + fs.length) := by
  have hw : (ds ++ '.' :: (fs ++ rest)).takeWhile Char.isDigit = ds := by
    apply takeWhile_append_stop hd
    intro c hc
    obtain rfl : '.' = c := by simpa using hc
    rfl
  have hfs : fractionDigits ('.' :: (fs ++ rest)) = fs := takeWhile_append_stop hf hr.not_isDigit
  have hempty : fs.isEmpty = false := by simpa using hne
  have hdrop : ('.' :: (fs ++ rest)).drop (1 + fs.length) = rest := by
    rw [Nat.add_comm, List.drop_succ_cons, List.drop_left]
  unfold decimalNumber
  simp only [hw, List.drop_left, hfs, hempty, hdrop, Bool.false_eq_true, if_false]
  exact closeNumber_eq_ok hr _ _

/-- Digits that are followed by no mark of base sixteen are those of a decimal number. -/
theorem number_digits (hd : ∀ c ∈ ds, c.isDigit)
    (hr : ∀ c ∈ rest.head?, c ≠ '0' ∧ c ≠ 'x' ∧ c ≠ 'X') :
    number negative (ds ++ rest) = decimalNumber negative (ds ++ rest) := by
  have hno : ∀ x tail, x = 'x' ∨ x = 'X' → ds ++ rest ≠ '0' :: x :: tail := by
    intro x tail hx he
    cases ds with
    | nil =>
      have he : rest = '0' :: x :: tail := he
      exact (hr '0' (by rw [he]; rfl)).1 rfl
    | cons d ds =>
      obtain ⟨-, he⟩ := List.cons.inj he
      cases ds with
      | nil =>
        have he : rest = x :: tail := he
        have hx' := hr x (by rw [he]; rfl)
        rcases hx with rfl | rfl
        · exact hx'.2.1 rfl
        · exact hx'.2.2 rfl
      | cons e ds =>
        obtain ⟨rfl, -⟩ := List.cons.inj he
        have hx' := hd e (by simp)
        rcases hx with rfl | rfl
        · exact absurd hx' (by decide)
        · exact absurd hx' (by decide)
  unfold number
  split
  · rename_i tail he
    exact absurd he (hno 'x' tail (Or.inl rfl))
  · rename_i tail he
    exact absurd he (hno 'X' tail (Or.inr rfl))
  · rfl

theorem number_hex (hd : ∀ c ∈ ds, isHexDigit c) (hne : ds ≠ []) (hr : IsBoundary rest) :
    number negative ('0' :: 'x' :: (ds ++ rest)) =
      .ok (.hexInteger (if negative then -UInt32.ofNat (numberOfDigits 16 ds)
        else UInt32.ofNat (numberOfDigits 16 ds))) (2 + ds.length) := by
  have hw := takeWhile_append_stop hd hr.not_isHexDigit
  have hempty : ds.isEmpty = false := by simpa using hne
  have hv : wordOfDigits 16 ds = UInt32.ofNat (numberOfDigits 16 ds) := wordOfDigits_ofNat 16 ds
  simp only [number, hexNumber, hw, hempty, hv, List.drop_left, Bool.false_eq_true, if_false]
  rw [closeNumber_eq_ok hr]
  rfl

end Literal

namespace Cursor

variable {signed : Bool} {c : Char} {cs : List Char}

theorem isNameStart_of_isDigit (h : c.isDigit) : isNameStart c = false := by
  apply Bool.eq_false_iff.mpr
  intro hs
  simp only [Char.isDigit, Bool.and_eq_true, decide_eq_true_eq] at h
  have h2 : c.val.toNat ≤ 57 := UInt32.le_iff_toNat_le.mp h.2
  simp only [isNameStart, Char.isAlpha, Char.isUpper, Char.isLower, Bool.or_eq_true,
    Bool.and_eq_true, decide_eq_true_eq, UInt32.le_iff_toNat_le] at hs
  rcases hs with (⟨h1, -⟩ | ⟨h1, -⟩) | rfl
  · exact absurd (Nat.le_trans h1 h2) (by decide)
  · exact absurd (Nat.le_trans h1 h2) (by decide)
  · exact absurd h2 (by decide)

theorem read_digit (h : c.isDigit) {t : Token} {n : Nat}
    (hn : Literal.number false (c :: cs) = .ok t n) : read signed c cs = .ok t (n - 1) := by
  unfold read
  rw [if_neg (by simp [isNameStart_of_isDigit h]), if_pos h, hn]
  rfl

theorem read_minus (h : cs.head?.any Char.isDigit) :
    read true '-' cs = Literal.number true cs := by
  unfold read
  rw [if_neg (by decide), if_neg (by decide), if_pos ⟨Or.inl rfl, rfl, h⟩]
  rfl

end Cursor

def IsPlain (c : Char) : Prop := isNameChar c ∨ c = '.' ∨ c = '-'

theorem Blank.front_plain {c : Char} (h : IsPlain c) (cs : List Char) :
    front (c :: cs) = .other := by
  have hne : ∀ d : Char, d ≠ '.' → d ≠ '-' → isNameChar d = false → c ≠ d := by
    rintro d h1 h2 h3 rfl
    rcases h with h | h | h
    · rw [h3] at h
      cases h
    · exact h1 h
    · exact h2 h
  apply front_other
  · exact hne _ (by decide) (by decide) (by decide)
  · exact hne _ (by decide) (by decide) (by decide)
  · apply Bool.eq_false_iff.mpr
    intro hb
    simp only [isBlank, decide_eq_true_eq] at hb
    rcases hb with hb | hb | hb | hb | hb
    all_goals exact absurd hb (hne _ (by decide) (by decide) (by decide))

theorem isPlain_of_isDigit {c : Char} (h : c.isDigit) : IsPlain c :=
  Or.inl (isNameChar_of_isDigit h)

namespace Numeral

variable {signed : Bool} {rest : List Char}

theorem exists_toDigits (n : Nat) :
    ∃ d ds, Nat.toDigits 10 n = d :: ds ∧ d.isDigit := by
  obtain ⟨d, ds, hds⟩ := List.exists_cons_of_ne_nil (@Nat.toDigits_ne_nil n 10)
  have hd : d ∈ Nat.toDigits 10 n := by
    rw [hds]
    exact List.mem_cons_self
  exact ⟨d, ds, hds, Nat.isDigit_of_mem_toDigits (by omega) (by omega) hd⟩

theorem number_decimal (negative : Bool) (n : Nat) (hr : IsBoundary rest) :
    Literal.number negative (Nat.toDigits 10 n ++ rest) =
      .ok (.integer (Int32.ofInt (if negative then -(n : Int) else n)))
        (Nat.toDigits 10 n).length := by
  have hd : ∀ c ∈ Nat.toDigits 10 n, c.isDigit := fun c hc =>
    Nat.isDigit_of_mem_toDigits (by omega) (by omega) hc
  rw [Literal.number_digits hd hr.ne_mark, Literal.decimalNumber_digits hd hr,
    numberOfDigits_toDigits (by omega) (by omega)]

theorem frontReads_decimal (n : Nat) (hr : IsBoundary rest) :
    FrontReads signed (decimal n).toList rest (.integer (Int32.ofInt n)) := by
  obtain ⟨d, ds, hds, hd⟩ := exists_toDigits n
  have hn := number_decimal false n hr
  rw [hds, List.cons_append] at hn
  refine ⟨d, ds, ?_, Blank.front_plain (isPlain_of_isDigit hd) _, ?_⟩
  · rw [decimal, String.toList_ofList, hds]
  · exact Cursor.read_digit hd hn

theorem frontReads_signed (v : Int32) (hr : IsBoundary rest) :
    FrontReads true (Numeral.signed v.toInt).toList rest (.integer v) := by
  unfold Numeral.signed
  split
  · rename_i hneg
    obtain ⟨d, ds, hds, hd⟩ := exists_toDigits v.toInt.natAbs
    have hn := number_decimal true v.toInt.natAbs hr
    have hv : Int32.ofInt (-(v.toInt.natAbs : Int)) = v := by
      rw [show -(v.toInt.natAbs : Int) = v.toInt by omega, Int32.ofInt_toInt]
    refine ⟨'-', Nat.toDigits 10 v.toInt.natAbs, ?_, Blank.front_plain (Or.inr (Or.inr rfl)) _, ?_⟩
    · simp [decimal]
    · rw [Cursor.read_minus (by simp [hds, hd]), hn, if_pos rfl, hv]
  · rename_i hneg
    have hv : Int32.ofInt (v.toInt.natAbs : Int) = v := by
      rw [show (v.toInt.natAbs : Int) = v.toInt by omega, Int32.ofInt_toInt]
    have hd := @frontReads_decimal true _ v.toInt.natAbs hr
    rwa [hv] at hd

theorem frontReads_hex (v : UInt32) (hr : IsBoundary rest) :
    FrontReads signed ("0x" ++ hex v.toNat).toList rest (.hexInteger v) := by
  have hd : ∀ c ∈ Nat.toDigits 16 v.toNat, isHexDigit c := fun c hc => isHexDigit_of_mem_toDigits hc
  have hn := @Literal.number_hex false _ _ hd Nat.toDigits_ne_nil hr
  rw [numberOfDigits_toDigits (by omega) (by omega), UInt32.ofNat_toNat] at hn
  refine ⟨'0', 'x' :: Nat.toDigits 16 v.toNat, ?_,
    Blank.front_plain (isPlain_of_isDigit (by decide)) _, ?_⟩
  · simp [hex]
  · rw [List.cons_append, Cursor.read_digit (by decide) hn, List.length_cons]
    congr 1
    omega

end Numeral

namespace Literal

variable {negative : Bool} {cs rest : List Char} {x : Binary32}

theorem eq_of_closeNumber {t u : Token} {n : Nat} (h : (closeNumber t rest n).result = .ok u) :
    u = t ∧ (closeNumber t rest n).length = n := by
  unfold closeNumber at h ⊢
  split at h
  · cases h
  · rename_i hn
    obtain rfl := Except.ok.inj h
    rw [if_neg hn]
    exact ⟨rfl, rfl⟩

theorem hexNumber_ne_float : (hexNumber negative cs).result ≠ .ok (.float x) := by
  intro h
  unfold hexNumber at h
  dsimp only at h
  split at h
  · cases h
  · cases (eq_of_closeNumber h).1

theorem exists_of_fractionDigits_ne_nil (h : fractionDigits cs ≠ []) :
    ∃ tail, cs = '.' :: tail ∧ fractionDigits cs = tail.takeWhile Char.isDigit := by
  unfold fractionDigits at h ⊢
  split at h
  · exact ⟨_, rfl, rfl⟩
  · exact absurd rfl h

/-- A text that is read to its end as a float has digits on both sides of a point. -/
theorem exists_of_number_eq_float (h : (number negative cs).result = .ok (.float x))
    (hl : cs.length - 1 ≤ (number negative cs).length - 1) :
    ∃ ds fs, cs = ds ++ '.' :: fs ∧ (∀ c ∈ ds, c.isDigit) ∧ (∀ c ∈ fs, c.isDigit) ∧ fs ≠ [] ∧
      x = float negative ds fs := by
  generalize hn : number negative cs = r at h hl
  unfold number at hn
  split at hn
  · rw [← hn] at h
    exact absurd h hexNumber_ne_float
  · rw [← hn] at h
    exact absurd h hexNumber_ne_float
  · unfold decimalNumber at hn
    dsimp only at hn
    split at hn
    · rw [← hn] at h
      cases (eq_of_closeNumber h).1
    · rename_i hne
      rw [← hn] at h hl
      obtain ⟨hx, hlen⟩ := eq_of_closeNumber h
      rw [hlen] at hl
      have hcs := List.prefix_iff_eq_append.mp (List.takeWhile_prefix Char.isDigit (l := cs))
      obtain ⟨tail, htail, hfs⟩ := exists_of_fractionDigits_ne_nil (by simpa using hne)
      rw [htail] at hcs
      rw [hfs] at hl hx hne
      have hall : tail.takeWhile Char.isDigit = tail := by
        refine (List.takeWhile_prefix _).eq_of_length_le ?_
        have hcs := congrArg List.length hcs
        simp only [List.length_append, List.length_cons] at hcs
        omega
      refine ⟨_, tail, hcs.symm, fun c hc => List.mem_takeWhile_imp hc, fun c hc => ?_, ?_, ?_⟩
      · rw [← hall] at hc
        exact List.mem_takeWhile_imp hc
      · rw [hall] at hne
        simpa using hne
      · rw [hall] at hx
        exact Token.float.inj hx

theorem number_float (h : (number negative cs).result = .ok (.float x))
    (hl : cs.length - 1 ≤ (number negative cs).length - 1) (hr : IsBoundary rest) :
    number negative (cs ++ rest) = .ok (.float x) cs.length := by
  obtain ⟨ds, fs, rfl, hd, hf, hne, rfl⟩ := exists_of_number_eq_float h hl
  rw [List.append_assoc, List.cons_append, number_digits hd, decimalNumber_point hd hf hne hr]
  · congr 1
    simp only [List.length_append, List.length_cons]
    omega
  · intro c hc
    obtain rfl : '.' = c := by simpa using hc
    decide

end Literal

namespace Cursor

variable {signed : Bool} {c : Char} {cs rest : List Char} {x : Binary32}

def IsNoFloat (t : Token) : Prop := ∀ x, t ≠ .float x

theorem isNoFloat_angle (cs : List Char) : (Name.angle cs).All IsNoFloat := by
  have harg : ∀ r : Name.Ref, IsNoFloat r.asArg := by
    intro r x
    cases r <;> exact Token.noConfusion
  unfold Name.angle
  split
  · exact Reading.all_ok.mpr nofun
  · exact Reading.all_ok.mpr nofun
  · exact Reading.all_ok.mpr nofun
  · dsimp only
    rw [Reading.all_after]
    unfold Name.closeArg
    split
    · exact Reading.all_ok.mpr (harg _)
    · exact Reading.all_fail
    · exact Reading.all_fail
  · dsimp only
    split
    · exact Reading.all_ok.mpr nofun
    · exact Reading.all_ok.mpr nofun
  · exact Reading.all_ok.mpr nofun

/-- Only the reading of a number gives a float. -/
theorem number_of_read_eq_float (h : (read signed c cs).result = .ok (.float x)) :
    (c.isDigit ∧ read signed c cs = ⟨(Literal.number false (c :: cs)).result,
        (Literal.number false (c :: cs)).length - 1⟩) ∨
      (read signed c cs = Literal.number (c = '-') cs ∧
        ∀ rest, read signed c (cs ++ rest) = Literal.number (c = '-') (cs ++ rest)) := by
  suffices hall : (read signed c cs).All fun t => IsNoFloat t ∨ isNameStart c = false ∧
      (c.isDigit ∨ c.isDigit = false ∧ (c = '-' ∨ c = '+') ∧ signed ∧
        cs.head?.any Char.isDigit) by
    rcases hall _ h with hno | ⟨hs, hd | ⟨hd, hc, hsigned, hhead⟩⟩
    · exact absurd rfl (hno x)
    · refine Or.inl ⟨hd, ?_⟩
      unfold read
      rw [if_neg (by simp [hs]), if_pos hd]
    · -- A sign was read with the digit after it, and that digit stays.
      have heq : ∀ rest, read signed c (cs ++ rest) = Literal.number (c = '-') (cs ++ rest) := by
        intro rest
        have hhead' : (cs ++ rest).head?.any Char.isDigit := by
          cases cs with
          | nil => cases hhead
          | cons d cs => exact hhead
        unfold read
        rw [if_neg (by simp [hs]), if_neg (by simp [hd]), if_pos ⟨hc, hsigned, hhead'⟩]
      refine Or.inr ⟨?_, heq⟩
      simpa using heq []
  unfold read
  split
  · unfold Name.word
    refine Reading.all_ok.mpr (Or.inl ?_)
    split <;> exact nofun
  rename_i hs
  have hs : isNameStart c = false := by simpa using hs
  split
  · rename_i hd
    exact fun _ _ => Or.inr ⟨hs, Or.inl hd⟩
  rename_i hd
  have hd : c.isDigit = false := by simpa using hd
  split
  · rename_i hc
    exact fun _ _ => Or.inr ⟨hs, Or.inr ⟨hd, hc⟩⟩
  split
  · exact Reading.all_map.mpr fun _ _ => Or.inl nofun
  · exact Reading.all_map.mpr fun _ _ => Or.inl nofun
  · exact Reading.all_after.mpr (Reading.all_map.mpr fun _ _ => Or.inl nofun)
  · refine Reading.all_map.mpr fun r _ => Or.inl fun x => ?_
    cases r <;> exact Token.noConfusion
  · exact fun t ht => Or.inl (isNoFloat_angle _ t ht)
  · exact Reading.all_ok.mpr (Or.inl nofun)
  · exact Reading.all_ok.mpr (Or.inl nofun)
  · exact Reading.all_ok.mpr (Or.inl nofun)
  · exact Reading.all_ok.mpr (Or.inl nofun)
  · exact Reading.all_ok.mpr (Or.inl nofun)
  · split
    · exact Reading.all_ok.mpr (Or.inl nofun)
    · exact Reading.all_fail

/-- A text that is read to its end as a float is also read so before other text. -/
theorem read_float (h : (read signed c cs).result = .ok (.float x))
    (hl : cs.length ≤ (read signed c cs).length) (hr : IsBoundary rest) :
    read signed c (cs ++ rest) = .ok (.float x) cs.length := by
  rcases number_of_read_eq_float h with ⟨hd, hn⟩ | ⟨hn, hext⟩
  · rw [hn] at h hl
    exact read_digit hd (Literal.number_float h hl hr)
  · rw [hn] at h hl
    rw [hext]
    exact Literal.number_float h (by omega) hr

theorem next?_plain (hc : IsPlain c) (offset : Nat) (op : Bool) :
    next? ⟨c :: cs, offset, op⟩ =
      some ((⟨c :: cs, offset, op⟩ : Cursor).advance (read (!op) c cs)) := by
  have hrun : Blank.run (c :: cs) = ⟨0, false⟩ := Blank.runFrom_other (Blank.front_plain hc cs) 0
  simp [next?, hrun, skip, Utf8.size]

/-- A text without blanks that is read as one token is read to its end. -/
theorem read_of_ofText {text : List Char} {t : Token} (ht : ∀ c ∈ text, IsPlain c)
    (h : (Lexeme.ofText text).map (List.map Lexeme.token) = .ok [t]) :
    ∃ c cs, text = c :: cs ∧ (read true c cs).result = .ok t ∧
      cs.length ≤ (read true c cs).length := by
  obtain ⟨ls, hls, hmap⟩ := map_eq_ok_iff.mp h
  obtain ⟨l, ls', rfl, rfl, hnil⟩ := List.map_eq_cons_iff.mp hmap
  obtain rfl := List.map_eq_nil_iff.mp hnil
  rcases Lexeme.ofText_eq_ok_iff.mp hls with _ | ⟨hn, hs⟩
  rcases hs with ⟨hend⟩ | _
  rename_i d
  cases text with
  | nil => cases (next?_nil 0 false).symm.trans hn
  | cons c cs =>
    have ha := Option.some.inj ((next?_plain (ht c List.mem_cons_self) 0 false).symm.trans hn)
    have hd := congrArg (fun p => p.2.rest) ha
    rw [rest_advance] at hd
    -- What was left would be read as a second token.
    have hrest : d.rest = [] := by
      obtain ⟨rest, offset, op⟩ := d
      cases rest with
      | nil => rfl
      | cons e es =>
        have he : e ∈ e :: es := List.mem_cons_self
        rw [← show _ = e :: es from hd] at he
        have he := List.mem_of_mem_drop he
        rw [next?_plain (ht e he)] at hend
        cases hend
    refine ⟨c, cs, rfl, ?_, ?_⟩
    · unfold advance at ha
      split at ha
      · rename_i token htoken
        obtain rfl := Except.ok.inj (Prod.mk.inj ha).1
        exact htoken
      · cases (Prod.mk.inj ha).1
    · have hlen := List.drop_eq_nil_iff.mp (hd.trans hrest)
      rw [List.length_cons] at hlen
      exact Nat.le_of_add_le_add_left (Nat.add_comm _ _ ▸ hlen)

end Cursor

def Binary32.IsReadable (x : Binary32) : Prop :=
  (Lexeme.ofText x.text.toList).map (List.map Lexeme.token) = .ok [.float x]

instance (x : Binary32) : Decidable x.IsReadable := inferInstanceAs (Decidable (_ = _))

namespace Binary32

variable {x : Binary32}

def IsFinite (x : Binary32) : Prop := x.exponentField ≠ 255

instance (x : Binary32) : Decidable x.IsFinite := inferInstanceAs (Decidable (_ ≠ _))

theorem exists_digits_of_positional (digits : Nat) (e : Int) :
    ∃ ds fs, (positional digits e).toList = ds ++ '.' :: fs ∧ (ds ≠ [] ∧ fs ≠ []) ∧
      (∀ c ∈ ds, c.isDigit) ∧ ∀ c ∈ fs, c.isDigit := by
  have hall : ∀ c ∈ Numeral.padded 10 ((-e).toNat + 1) digits ++ List.replicate e.toNat '0',
      c.isDigit := by
    intro c hc
    rcases List.mem_append.mp hc with hc | hc
    · obtain ⟨d, hd, rfl⟩ := Numeral.exists_digitChar_of_mem_padded (by omega) hc
      simpa [Nat.isDigit_digitChar] using hd
    · rw [List.eq_of_mem_replicate hc]
      rfl
  have hlength : (-e).toNat <
      (Numeral.padded 10 ((-e).toNat + 1) digits ++ List.replicate e.toNat '0').length := by
    simp only [Numeral.padded, List.length_append, List.length_replicate]
    omega
  simp only [positional, String.toList_ofList]
  generalize Numeral.padded 10 ((-e).toNat + 1) digits ++ List.replicate e.toNat '0' = ds
    at hall hlength ⊢
  refine ⟨_, _, rfl, ⟨?_, ?_⟩, fun c hc => hall c (List.mem_of_mem_take hc), ?_⟩
  · rw [Ne, List.take_eq_nil_iff]
    rintro (h | rfl)
    · omega
    · simp at hlength
  · split
    · simp
    · rename_i h
      simpa using h
  · intro c hc
    split at hc
    · rw [List.mem_singleton.mp hc]
      rfl
    · exact hall c (List.mem_of_mem_drop hc)

/-- A finite float is written with digits on both sides of a point. -/
theorem exists_digits_of_isFinite (hx : x.IsFinite) :
    ∃ (negative : Bool) (ds fs : List Char),
      x.text.toList = (if negative then ['-'] else []) ++ (ds ++ '.' :: fs) ∧
        (ds ≠ [] ∧ fs ≠ []) ∧ (∀ c ∈ ds, c.isDigit) ∧ ∀ c ∈ fs, c.isDigit := by
  have hvalue : x.value = .number x.isNegative (.finite x.units) := if_neg hx
  have hsign : ∀ negative : Bool, (if negative then "-" else "").toList =
      if negative then ['-'] else [] := by decide
  obtain ⟨ds, fs, hd, hrest⟩ : ∃ ds fs,
      (x.magnitudeText (.finite x.units)).toList = ds ++ '.' :: fs ∧ (ds ≠ [] ∧ fs ≠ []) ∧
        (∀ c ∈ ds, c.isDigit) ∧ ∀ c ∈ fs, c.isDigit := by
    unfold magnitudeText
    split
    · rename_i h
      cases h
    · exact ⟨['0'], ['0'], rfl, by simp, by simp, by simp⟩
    · exact exists_digits_of_positional _ _
  refine ⟨x.isNegative, ds, fs, ?_, hrest⟩
  simp only [text, hvalue, String.toList_append, hsign, hd]

theorem text_of_not_isFinite (hx : ¬ x.IsFinite) :
    x.text = "NaN" ∨ x.text = "inf" ∨ x.text = "-inf" := by
  have he : x.exponentField = 255 := not_not.mp hx
  by_cases hf : x.fractionField = 0
  · have hv : x.value = .number x.isNegative .infinite := by rw [value, if_pos he, if_pos hf]
    rw [text, hv]
    cases x.isNegative
    · exact Or.inr (Or.inl rfl)
    · exact Or.inr (Or.inr rfl)
  · have hv : x.value = .nan := by rw [value, if_pos he, if_neg hf]
    rw [text, hv]
    exact Or.inl rfl

theorem isPlain_of_mem_text {c : Char} (h : c ∈ x.text.toList) : IsPlain c := by
  by_cases hx : x.IsFinite
  · obtain ⟨negative, ds, fs, ht, -, hd, hf⟩ := exists_digits_of_isFinite hx
    rw [ht] at h
    rcases List.mem_append.mp h with h | h
    · split at h
      · rw [List.mem_singleton.mp h]
        exact Or.inr (Or.inr rfl)
      · cases h
    · rcases List.mem_append.mp h with h | h
      · exact isPlain_of_isDigit (hd c h)
      · rcases List.mem_cons.mp h with rfl | h
        · exact Or.inr (Or.inl rfl)
        · exact isPlain_of_isDigit (hf c h)
  · have hword : ∀ s : String, s.toList.all (fun c => isNameChar c || c == '-') →
        c ∈ s.toList → IsPlain c := by
      intro s hs hc
      have hc := List.all_eq_true.mp hs c hc
      rw [Bool.or_eq_true, beq_iff_eq] at hc
      exact hc.imp_right Or.inr
    rcases text_of_not_isFinite hx with ht | ht | ht
    all_goals
      rw [ht] at h
      exact hword _ (by decide) h

/-- Where a sign may belong to a number, a readable float is read before other text. -/
theorem frontReads_text (hx : x.IsReadable) {rest : List Char} (hr : IsBoundary rest) :
    FrontReads true x.text.toList rest (.float x) := by
  obtain ⟨c, cs, htext, hread, hl⟩ := Cursor.read_of_ofText (fun c hc => isPlain_of_mem_text hc) hx
  have hread := Cursor.read_float hread hl hr
  have hc : c ∈ x.text.toList := by
    rw [htext]
    exact List.mem_cons_self
  exact ⟨c, cs, htext, Blank.front_plain (isPlain_of_mem_text hc) _, hread⟩

/-- Where a sign may belong to a number, a finite float is read as a float before other text. -/
theorem exists_frontReads_text (hx : x.IsFinite) :
    ∃ y : Binary32, ∀ rest, IsBoundary rest → FrontReads true x.text.toList rest (.float y) := by
  obtain ⟨negative, ds, fs, htext, ⟨hds, hfs⟩, hd, hf⟩ := exists_digits_of_isFinite hx
  refine ⟨Literal.float negative ds fs, fun rest hr => ?_⟩
  have hnumber : Literal.number negative (ds ++ '.' :: fs ++ rest) =
      .ok (.float (Literal.float negative ds fs)) (ds.length + 1 + fs.length) := by
    rw [List.append_assoc, List.cons_append, Literal.number_digits hd,
      Literal.decimalNumber_point hd hf hfs hr]
    intro c hc
    obtain rfl : '.' = c := by simpa using hc
    decide
  obtain ⟨d, ds, rfl⟩ := List.exists_cons_of_ne_nil hds
  have hdigit : d.isDigit := hd d List.mem_cons_self
  rw [htext]
  cases negative with
  | false =>
    refine ⟨d, ds ++ '.' :: fs, rfl, Blank.front_plain (isPlain_of_isDigit hdigit) _, ?_⟩
    refine (Cursor.read_digit hdigit hnumber).trans ?_
    congr 1
    simp only [List.length_append, List.length_cons]
    omega
  | true =>
    refine ⟨'-', d :: ds ++ '.' :: fs, rfl, Blank.front_plain (Or.inr (Or.inr rfl)) _, ?_⟩
    rw [Cursor.read_minus (by simp [hdigit]), hnumber]
    congr 1
    simp only [List.length_append, List.length_cons]
    omega

end Binary32

end QbScript
