import QbScript.Proofs.Script.Alike
import QbScript.Proofs.Source.Cut
import QbScript.Proofs.Text.Slice

/-!
# Letter case

Outside strings a source is read as the same source with its letters made lower-case, but for the
spellings of names. So are two sources that differ in the case of letters only.
-/

set_option autoImplicit false

namespace QbScript

/-- What holds of a character and itself, and of a capital letter and its small one, holds of every
character and the same in lower case. -/
theorem of_toLower {P : Char → Char → Prop} (hrefl : ∀ c, P c c)
    (hletter : ∀ n : Fin 26, P (Char.ofNat (65 + n)) (Char.ofNat (97 + n))) (c : Char) :
    P c c.toLower := by
  unfold Char.toLower
  split
  · rename_i hc
    have hlow : 65 ≤ c.val.toNat := UInt32.le_iff_toNat_le.mp hc.1
    have hhigh : c.val.toNat ≤ 90 := UInt32.le_iff_toNat_le.mp hc.2
    have h := hletter ⟨c.val.toNat - 65, by omega⟩
    have hcapital : Char.ofNat (65 + (c.val.toNat - 65)) = c := by
      rw [Nat.add_sub_cancel' hlow]
      exact Char.ofNat_toNat c
    have hsmall : ∀ hv, (⟨c.val + ('a'.val - 'A'.val), hv⟩ : Char) =
        Char.ofNat (97 + (c.val.toNat - 65)) := by
      intro hv
      apply Char.ext
      apply UInt32.toNat_inj.mp
      rw [Utf8.toNat_val_ofNat (by omega), UInt32.toNat_add,
        show ('a'.val - 'A'.val).toNat = 32 from rfl]
      omega
    rw [hcapital] at h
    rw [hsmall]
    exact h
  · exact hrefl c

theorem isNameChar_toLower (c : Char) : isNameChar c.toLower = isNameChar c :=
  of_toLower (P := fun c d => isNameChar d = isNameChar c) (fun _ => rfl) (by decide) c

theorem isNameStart_toLower (c : Char) : isNameStart c.toLower = isNameStart c :=
  of_toLower (P := fun c d => isNameStart d = isNameStart c) (fun _ => rfl) (by decide) c

theorem isDigit_toLower (c : Char) : c.toLower.isDigit = c.isDigit :=
  of_toLower (P := fun c d => d.isDigit = c.isDigit) (fun _ => rfl) (by decide) c

theorem isHexDigit_toLower (c : Char) : isHexDigit c.toLower = isHexDigit c :=
  of_toLower (P := fun c d => isHexDigit d = isHexDigit c) (fun _ => rfl) (by decide) c

theorem digitValue_toLower {c : Char} (h : isHexDigit c) : digitValue c.toLower = digitValue c :=
  of_toLower (P := fun c d => isHexDigit c → digitValue d = digitValue c) (fun _ _ => rfl)
    (by decide) c h

theorem isBlank_toLower (c : Char) : Blank.isBlank c.toLower = Blank.isBlank c :=
  of_toLower (P := fun c d => Blank.isBlank d = Blank.isBlank c) (fun _ => rfl) (by decide) c

theorem utf8Size_toLower (c : Char) : c.toLower.utf8Size = c.utf8Size :=
  of_toLower (P := fun c d => d.utf8Size = c.utf8Size) (fun _ => rfl) (by decide) c

theorem normalizeByte_toLower (c : Char) :
    (String.utf8EncodeChar c.toLower).map Checksum.normalizeByte =
      (String.utf8EncodeChar c).map Checksum.normalizeByte :=
  of_toLower (P := fun c d => (String.utf8EncodeChar d).map Checksum.normalizeByte =
    (String.utf8EncodeChar c).map Checksum.normalizeByte) (fun _ => rfl) (by decide) c

/-- Only a sign becomes a sign. -/
theorem toLower_eq_iff {k : Char} (hk : k.isAlpha = false) (c : Char) : c.toLower = k ↔ c = k := by
  refine of_toLower (P := fun c d => d = k ↔ c = k) (fun _ => Iff.rfl) (fun n => ?_) c
  have hletter : ∀ n : Fin 26, (Char.ofNat (65 + n)).isAlpha ∧ (Char.ofNat (97 + n)).isAlpha := by
    decide
  constructor
  · rintro rfl
    rw [(hletter n).2] at hk
    cases hk
  · rintro rfl
    rw [(hletter n).1] at hk
    cases hk

theorem eq_of_toLower_eq_x {c : Char} : c.toLower = 'x' → c = 'x' ∨ c = 'X' :=
  of_toLower (P := fun c d => d = 'x' → c = 'x' ∨ c = 'X') (fun _ => Or.inl) (by decide) c

theorem eq_of_toLower_eq_X {c : Char} : c.toLower = 'X' → c = 'X' :=
  of_toLower (P := fun c d => d = 'X' → c = 'X') (fun _ => id) (by decide) c

/-- The text in lower case starts with a sign only if the text does. -/
theorem exists_of_map_toLower {k : Char} {cs zs : List Char} (h : cs.map Char.toLower = k :: zs)
    (hk : k.isAlpha = false) : ∃ ds, cs = k :: ds ∧ ds.map Char.toLower = zs := by
  cases cs with
  | nil => cases h
  | cons c cs =>
    obtain ⟨hc, rfl⟩ := List.cons.inj h
    exact ⟨cs, by rw [(toLower_eq_iff hk c).mp hc], rfl⟩

theorem takeWhile_map_toLower {p : Char → Bool} (hp : ∀ c, p c.toLower = p c) (cs : List Char) :
    (cs.map Char.toLower).takeWhile p = (cs.takeWhile p).map Char.toLower := by
  rw [List.takeWhile_map, show p ∘ Char.toLower = p from funext hp]

theorem size_map_toLower (cs : List Char) : Utf8.size (cs.map Char.toLower) = Utf8.size cs := by
  induction cs with
  | nil => rfl
  | cons c cs ih => rw [List.map_cons, Utf8.size_cons, Utf8.size_cons, utf8Size_toLower, ih]

namespace Blank

theorem commentLength?_map_toLower (n : Nat) (cs : List Char) :
    commentLength? n (cs.map Char.toLower) = commentLength? n cs := by
  fun_induction commentLength? n cs with
  | case1 => rfl
  | case2 n c rest hne ih =>
    rw [List.map_cons, commentLength?.eq_2, ih]
    intro rest' hc hr
    obtain ⟨ds, rfl, -⟩ := exists_of_map_toLower hr (by decide)
    exact hne ds ((toLower_eq_iff (by decide) c).mp hc) rfl
  | case3 => rfl

theorem front_map_toLower (cs : List Char) : front (cs.map Char.toLower) = front cs := by
  conv_rhs => unfold front
  split
  · rename_i rest
    have h : (rest.map Char.toLower).takeWhile (· ≠ '\n') =
        (rest.takeWhile (· ≠ '\n')).map Char.toLower :=
      takeWhile_map_toLower (fun c => by simp [toLower_eq_iff (k := '\n') (by decide) c]) rest
    rw [show ('/' :: '/' :: rest).map Char.toLower = '/' :: '/' :: rest.map Char.toLower from rfl,
      front, h, List.length_map]
  · rename_i rest
    rw [show ('/' :: '*' :: rest).map Char.toLower = '/' :: '*' :: rest.map Char.toLower from rfl,
      front, commentLength?_map_toLower]
  · rfl
  · rfl
  · rename_i c rest h1 h2 h3 h4
    have hno : ∀ x y zs, x.isAlpha = false → y.isAlpha = false →
        (c :: rest).map Char.toLower = x :: y :: zs →
        ∃ ds, c = x ∧ rest = y :: ds ∧ ds.map Char.toLower = zs := by
      intro x y zs hx hy he
      obtain ⟨ds, hd, hds⟩ := exists_of_map_toLower he hx
      obtain ⟨rfl, rfl⟩ := List.cons.inj hd
      obtain ⟨es, rfl, hes⟩ := exists_of_map_toLower hds hy
      exact ⟨es, rfl, rfl, hes⟩
    unfold front
    split
    · rename_i he
      obtain ⟨ds, rfl, rfl, -⟩ := hno '/' '/' _ (by decide) (by decide) he
      exact (h1 ds rfl rfl).elim
    · rename_i he
      obtain ⟨ds, rfl, rfl, -⟩ := hno '/' '*' _ (by decide) (by decide) he
      exact (h2 ds rfl rfl).elim
    · rename_i he
      obtain ⟨ds, rfl, rfl, -⟩ := hno '\\' '\n' _ (by decide) (by decide) he
      exact (h3 ds rfl rfl).elim
    · rename_i he
      obtain ⟨ds, rfl, rfl, hds⟩ := hno '\\' '\r' _ (by decide) (by decide) he
      obtain ⟨es, rfl, -⟩ := exists_of_map_toLower hds (by decide)
      exact (h4 es rfl rfl).elim
    · rename_i he
      obtain ⟨rfl, -⟩ := List.cons.inj he
      rw [isBlank_toLower]
    · rename_i he
      cases he
  · rfl

theorem runFrom_map_toLower (n : Nat) (cs : List Char) :
    runFrom n (cs.map Char.toLower) = runFrom n cs := by
  fun_induction runFrom n cs with
  | case1 n => rw [List.map_nil, runFrom]
  | case2 n c rest more hf ih =>
    rw [List.map_cons, runFrom, ← List.map_cons, front_map_toLower, hf]
    dsimp only
    rw [← List.map_drop, ih]
  | case3 n c rest hf => rw [List.map_cons, runFrom, ← List.map_cons, front_map_toLower, hf]
  | case4 n c rest hf => rw [List.map_cons, runFrom, ← List.map_cons, front_map_toLower, hf]

end Blank

def lowerCase (text : String) : List Char := text.toList.map Char.toLower

def Token.lowered : Token → Token
  | .name text => .name (String.ofList (lowerCase text))
  | .arg text => .arg (String.ofList (lowerCase text))
  | t => t

theorem Token.alike_of_lowered {t t' : Token} (h : t.lowered = t'.lowered) :
    t.Alike lowerCase t' := by
  unfold lowered at h
  split at h
  · split at h
    · exact .name (String.ofList_injective (Token.name.inj h))
    · cases h
    · rename_i hname _
      exact (hname _ h.symm).elim
  · split at h
    · cases h
    · exact .arg (String.ofList_injective (Token.arg.inj h))
    · rename_i _ harg
      exact (harg _ h.symm).elim
  · rename_i hname harg
    split at h
    · exact (hname _ h).elim
    · exact (harg _ h).elim
    · exact h ▸ .refl _

def Name.Ref.lowered : Ref → Ref
  | .text s => .text (String.ofList (lowerCase s))
  | .checksum c => .checksum c

theorem Name.Ref.lowered_asName (r : Ref) : r.asName.lowered = r.lowered.asName := by
  cases r <;> rfl

theorem Name.Ref.lowered_asArg (r : Ref) : r.asArg.lowered = r.lowered.asArg := by
  cases r <;> rfl

theorem Tag.ofKeyword?_map_toLower (cs : List Char) :
    ofKeyword? (String.ofList (cs.map Char.toLower)) = ofKeyword? (String.ofList cs) := by
  have h : (String.ofList (cs.map Char.toLower)).toUpper = (String.ofList cs).toUpper := by
    apply String.toList_injective
    simp [String.toUpper]
  rw [ofKeyword?, ofKeyword?, h]

theorem numberOfDigits_map_toLower {digits : List Char} (h : ∀ d ∈ digits, isHexDigit d) :
    numberOfDigits 16 (digits.map Char.toLower) = numberOfDigits 16 digits := by
  rw [numberOfDigits, numberOfDigits, List.foldl_map]
  refine List.foldl_ext _ _ _ fun n d hd => ?_
  rw [digitValue_toLower (h d hd)]

theorem wordOfDigits_map_toLower {digits : List Char} (h : ∀ d ∈ digits, isHexDigit d) :
    wordOfDigits 16 (digits.map Char.toLower) = wordOfDigits 16 digits := by
  rw [wordOfDigits, wordOfDigits, List.foldl_map]
  refine List.foldl_ext _ _ _ fun n d hd => ?_
  rw [digitValue_toLower (h d hd)]

theorem toLower_of_isDigit {c : Char} (h : c.isDigit) : c.toLower = c :=
  of_toLower (P := fun c d => c.isDigit → d = c) (fun _ _ => rfl) (by decide) c h

/-- Decimal digits have one case. -/
theorem map_toLower_of_isDigit {digits : List Char} (h : ∀ d ∈ digits, d.isDigit) :
    digits.map Char.toLower = digits := by
  rw [List.map_congr_left fun d hd => toLower_of_isDigit (h d hd), List.map_id']

namespace Name

theorem word_map_toLower (c : Char) (cs : List Char) :
    word c.toLower (cs.map Char.toLower) = (word c cs).map Token.lowered := by
  unfold word
  dsimp only
  rw [takeWhile_map_toLower isNameChar_toLower, ← List.map_cons, Tag.ofKeyword?_map_toLower,
    List.length_map]
  cases Tag.ofKeyword? (String.ofList (c :: cs.takeWhile isNameChar)) with
  | none => simp [Reading.map, Reading.ok, Except.map, Token.lowered, lowerCase]
  | some tag => rfl

theorem quoted_map_toLower (cs : List Char) :
    quoted (cs.map Char.toLower) = (quoted cs).map Ref.lowered := by
  have hp : ∀ c : Char, decide (c.toLower ≠ '"' ∧ c.toLower ≠ '\n') = decide (c ≠ '"' ∧ c ≠ '\n') :=
    fun c => by simp [toLower_eq_iff (k := '"') (by decide), toLower_eq_iff (k := '\n') (by decide)]
  unfold quoted
  dsimp only
  rw [takeWhile_map_toLower hp, List.length_map, ← List.map_drop]
  generalize cs.takeWhile _ = text
  generalize cs.drop text.length = rest
  cases rest with
  | nil => rfl
  | cons d rest =>
    by_cases hd : d = '"'
    · subst hd
      simp [Reading.map, Reading.ok, Except.map, Ref.lowered, lowerCase]
    · have hd' := mt (toLower_eq_iff (k := '"') (by decide) d).mp hd
      split <;> simp_all [Reading.map, Reading.fail, Except.map]

theorem checksumDigits_map_toLower (cs : List Char) :
    checksumDigits (cs.map Char.toLower) = (checksumDigits cs).map Ref.lowered := by
  unfold checksumDigits
  dsimp only
  rw [takeWhile_map_toLower isHexDigit_toLower, List.length_map, ← List.map_drop]
  have hdigits : ∀ d ∈ cs.takeWhile isHexDigit, isHexDigit d := fun d => List.mem_takeWhile_imp
  have hn := numberOfDigits_map_toLower hdigits
  split
  · rfl
  generalize cs.takeWhile isHexDigit = digits at hn
  generalize cs.drop digits.length = rest
  cases digits with
  | nil => rfl
  | cons d digits =>
    cases rest with
    | nil => rfl
    | cons e rest =>
      by_cases he : e = ')'
      · subst he
        rw [hn]
        rfl
      · have he' := mt (toLower_eq_iff (k := ')') (by decide) e).mp he
        simp [Reading.map, Reading.fail, Except.map, he, he']

theorem percent_map_toLower (cs : List Char) :
    percent (cs.map Char.toLower) = (percent cs).map Ref.lowered := by
  have hafter : ∀ {r r' : Reading Ref} (n : Nat), r' = r.map Ref.lowered →
      r'.after n = (r.after n).map Ref.lowered := by
    rintro r r' n rfl
    rfl
  cases cs with
  | nil => rfl
  | cons c cs =>
  by_cases hc : c = '"'
  · subst hc
    exact hafter 1 (quoted_map_toLower cs)
  by_cases hc' : c = '('
  · subst hc'
    cases cs with
    | nil => rfl
    | cons d cs =>
    by_cases hd : d = '0'
    · subst hd
      cases cs with
      | nil => rfl
      | cons e cs =>
      by_cases he : e = 'x'
      · subst he
        exact hafter 3 (checksumDigits_map_toLower cs)
      by_cases he' : e = 'X'
      · subst he'
        exact hafter 3 (checksumDigits_map_toLower cs)
      · have hx : e.toLower ≠ 'x' := fun h => (eq_of_toLower_eq_x h).elim he he'
        have hX : e.toLower ≠ 'X' := mt eq_of_toLower_eq_X he'
        simp [percent, Reading.map, Reading.fail, Except.map, he, he', hx, hX]
    · have hd' := mt (toLower_eq_iff (k := '0') (by decide) d).mp hd
      simp [percent, Reading.map, Reading.fail, Except.map, hd, hd']
  · have h1 := mt (toLower_eq_iff (k := '"') (by decide) c).mp hc
    have h2 := mt (toLower_eq_iff (k := '(') (by decide) c).mp hc'
    simp [percent, Reading.map, Reading.fail, Except.map, hc, hc', h1, h2]

theorem closeArg_map_toLower (r : Reading Ref) (rest : List Char) :
    closeArg (r.map Ref.lowered) (rest.map Char.toLower) = (closeArg r rest).map Token.lowered := by
  obtain ⟨result, n⟩ := r
  cases result with
  | error m => rfl
  | ok ref =>
    cases rest with
    | nil => rfl
    | cons d rest =>
      by_cases hd : d = '>'
      · subst hd
        simp [closeArg, Reading.map, Reading.ok, Except.map, Ref.lowered_asArg]
      · have hd' := mt (toLower_eq_iff (k := '>') (by decide) d).mp hd
        simp [closeArg, Reading.map, Reading.fail, Except.map, hd, hd']

theorem angle_map_toLower (cs : List Char) :
    angle (cs.map Char.toLower) = (angle cs).map Token.lowered := by
  conv_rhs => unfold angle
  split
  · rfl
  · rfl
  · rfl
  · rename_i rest
    show (closeArg _ _).after 1 = ((closeArg _ _).map Token.lowered).after 1
    rw [← closeArg_map_toLower, percent_map_toLower, List.map_drop]
    rfl
  · rename_i c rest hdots hless heq hpercent
    rw [List.map_cons, angle]
    · dsimp only
      rw [← List.map_cons, takeWhile_map_toLower isNameChar_toLower, List.length_map,
        isNameStart_toLower, ← List.map_drop]
      generalize (c :: rest).takeWhile isNameChar = w
      generalize (c :: rest).drop w.length = tail
      cases isNameStart c with
      | false => rfl
      | true =>
        cases tail with
        | nil => rfl
        | cons d tail =>
          by_cases hd : d = '>'
          · subst hd
            simp [Reading.map, Reading.ok, Except.map, Token.lowered, lowerCase]
          · have hd' := mt (toLower_eq_iff (k := '>') (by decide) d).mp hd
            split <;> simp_all [Reading.map, Reading.ok, Except.map, Token.lowered]
    · intro zs hc hr
      obtain ⟨d, rfl, h1⟩ := exists_of_map_toLower hr (by decide)
      obtain ⟨e, rfl, h2⟩ := exists_of_map_toLower h1 (by decide)
      obtain ⟨f, rfl, h3⟩ := exists_of_map_toLower h2 (by decide)
      exact hdots f ((toLower_eq_iff (by decide) c).mp hc) rfl
    · exact fun hc => hless ((toLower_eq_iff (by decide) c).mp hc)
    · exact fun hc => heq ((toLower_eq_iff (by decide) c).mp hc)
    · exact fun hc => hpercent ((toLower_eq_iff (by decide) c).mp hc)
  · rfl

end Name

namespace Literal

theorem closeNumber_map_toLower (t : Token) (rest : List Char) (n : Nat) :
    closeNumber t (rest.map Char.toLower) n = closeNumber t rest n := by
  have h : (rest.map Char.toLower).head?.any isNameChar = rest.head?.any isNameChar := by
    cases rest with
    | nil => rfl
    | cons c rest => exact isNameChar_toLower c
  rw [closeNumber, h, closeNumber]

theorem hexNumber_map_toLower (negative : Bool) (cs : List Char) :
    hexNumber negative (cs.map Char.toLower) = hexNumber negative cs := by
  unfold hexNumber
  dsimp only
  rw [takeWhile_map_toLower isHexDigit_toLower, List.isEmpty_map, List.length_map,
    ← List.map_drop, closeNumber_map_toLower,
    wordOfDigits_map_toLower fun d hd => List.mem_takeWhile_imp hd]

theorem takeWhile_isDigit_map_toLower (cs : List Char) :
    (cs.map Char.toLower).takeWhile Char.isDigit = cs.takeWhile Char.isDigit := by
  rw [takeWhile_map_toLower isDigit_toLower,
    map_toLower_of_isDigit fun d hd => List.mem_takeWhile_imp hd]

theorem fractionDigits_map_toLower (cs : List Char) :
    fractionDigits (cs.map Char.toLower) = fractionDigits cs := by
  cases cs with
  | nil => rfl
  | cons c cs =>
    by_cases hc : c = '.'
    · subst hc
      exact takeWhile_isDigit_map_toLower cs
    · have hc' := mt (toLower_eq_iff (k := '.') (by decide) c).mp hc
      simp [fractionDigits, hc, hc']

theorem decimalNumber_map_toLower (negative : Bool) (cs : List Char) :
    decimalNumber negative (cs.map Char.toLower) = decimalNumber negative cs := by
  unfold decimalNumber
  dsimp only
  simp only [takeWhile_isDigit_map_toLower, ← List.map_drop, fractionDigits_map_toLower,
    closeNumber_map_toLower]

theorem number_map_toLower (negative : Bool) (cs : List Char) :
    number negative (cs.map Char.toLower) = number negative cs := by
  conv_rhs => unfold number
  split
  · exact congrArg (Reading.after 2) (hexNumber_map_toLower negative _)
  · exact congrArg (Reading.after 2) (hexNumber_map_toLower negative _)
  · rename_i hx hX
    have hno : ∀ e zs, (e = 'x' ∨ e = 'X') → cs.map Char.toLower ≠ '0' :: e :: zs := by
      intro e zs he h
      obtain ⟨ds, rfl, hds⟩ := exists_of_map_toLower h (by decide)
      obtain ⟨d, ds, rfl, hd, -⟩ := List.map_eq_cons_iff.mp hds
      rcases he with rfl | rfl
      · rcases eq_of_toLower_eq_x hd with rfl | rfl
        · exact hx ds rfl
        · exact hX ds rfl
      · obtain rfl := eq_of_toLower_eq_X hd
        exact hX ds rfl
    rw [number]
    · exact decimalNumber_map_toLower negative cs
    · exact fun zs => hno 'x' zs (Or.inl rfl)
    · exact fun zs => hno 'X' zs (Or.inr rfl)

theorem number_map_lowered (negative : Bool) (cs : List Char) :
    (number negative cs).map Token.lowered = number negative cs := by
  have hclose : ∀ t rest n, t.lowered = t →
      (closeNumber t rest n).map Token.lowered = closeNumber t rest n := by
    intro t rest n ht
    unfold closeNumber
    split
    · rfl
    · simp [Reading.map, Reading.ok, Except.map, ht]
  have hhex : ∀ cs, (hexNumber negative cs).map Token.lowered = hexNumber negative cs := by
    intro cs
    unfold hexNumber
    dsimp only
    split
    · rfl
    · exact hclose _ _ _ rfl
  unfold number
  split
  · exact congrArg (Reading.after 2) (hhex _)
  · exact congrArg (Reading.after 2) (hhex _)
  · unfold decimalNumber
    dsimp only
    split
    · exact hclose _ _ _ rfl
    · exact hclose _ _ _ rfl

end Literal

namespace Cursor

theorem toLower_of_isNameStart {c : Char} (h : isNameStart c = false) : c.toLower = c :=
  of_toLower (P := fun c d => isNameStart c = false → d = c) (fun _ _ => rfl) (by decide) c h

def StartsText (c : Char) (rest : List Char) : Prop :=
  c = '"' ∨ c = '\x27' ∨ c = '#' ∧ ∃ body, rest = '"' :: body

/-- A character that begins nothing is read alone. -/
theorem read_sign {signed : Bool} {c : Char} {rest : List Char} (hstart : isNameStart c = false)
    (hdigit : c.isDigit = false)
    (hnumber : ¬ ((c = '-' ∨ c = '+') ∧ signed ∧ rest.head?.any Char.isDigit))
    (hc : c ∉ ['"', '\x27', '#', '%', '<', '>', '=']) :
    read signed c rest =
      match sign? c with
      | some tag => .ok (.simple tag) 0
      | none => .fail (.unexpectedChar c) 0 := by
  unfold read
  rw [if_neg (by simp [hstart]), if_neg (by simp [hdigit]), if_neg hnumber]
  split <;> first | rfl | simp at hc

/-- What a mark begins, a string apart, is read the same. -/
theorem read_mark_map_toLower {signed : Bool} {c : Char} {rest : List Char}
    (h : ¬ StartsText c rest) (hc : c ∈ ['"', '\x27', '#', '%', '<', '>', '=']) :
    read signed c (rest.map Char.toLower) = (read signed c rest).map Token.lowered := by
  simp only [List.mem_cons, List.not_mem_nil, or_false] at hc
  rcases hc with rfl | rfl | rfl | rfl | rfl | rfl | rfl
  · exact absurd (Or.inl rfl) h
  · exact absurd (Or.inr (Or.inl rfl)) h
  · cases rest with
    | nil => rfl
    | cons d ds =>
      have hd : d ≠ '"' := by
        rintro rfl
        exact h (Or.inr (Or.inr ⟨rfl, ds, rfl⟩))
      have hd' := mt (toLower_eq_iff (k := '"') (by decide) d).mp hd
      simp [read, isNameStart, hd, hd', sign?, Reading.map, Reading.fail, Except.map]
  · show (Name.percent _).map _ = ((Name.percent _).map _).map _
    rw [Name.percent_map_toLower]
    cases hr : (Name.percent rest).result with
    | error m => simp [Reading.map, Except.map, hr]
    | ok r => simp [Reading.map, Except.map, hr, Name.Ref.lowered_asName]
  · exact Name.angle_map_toLower rest
  · cases rest with
    | nil => rfl
    | cons d ds =>
      by_cases hd : d = '>'
      · subst hd
        rfl
      by_cases hd' : d = '='
      · subst hd'
        rfl
      have h1 := mt (toLower_eq_iff (k := '>') (by decide) d).mp hd
      have h2 := mt (toLower_eq_iff (k := '=') (by decide) d).mp hd'
      simp [read, isNameStart, hd, hd', h1, h2, Reading.map, Reading.ok, Except.map,
        Token.lowered]
  · cases rest with
    | nil => rfl
    | cons d ds =>
      by_cases hd : d = '='
      · subst hd
        rfl
      have h1 := mt (toLower_eq_iff (k := '=') (by decide) d).mp hd
      simp [read, isNameStart, hd, h1, Reading.map, Reading.ok, Except.map, Token.lowered]

theorem read_map_toLower {signed : Bool} {c : Char} {rest : List Char} (h : ¬ StartsText c rest) :
    read signed c.toLower (rest.map Char.toLower) = (read signed c rest).map Token.lowered := by
  cases hstart : isNameStart c with
  | true =>
    unfold read
    rw [isNameStart_toLower, if_pos hstart, if_pos hstart]
    exact Name.word_map_toLower c rest
  | false =>
  rw [toLower_of_isNameStart hstart]
  cases hdigit : c.isDigit with
  | true =>
    have hnumber := Literal.number_map_toLower false (c :: rest)
    rw [List.map_cons, toLower_of_isNameStart hstart] at hnumber
    unfold read
    simp only [hstart, hdigit, Bool.false_eq_true, if_false, if_true, hnumber]
    exact congrArg (fun r : Reading Token => (⟨r.result, r.length - 1⟩ : Reading Token))
      (Literal.number_map_lowered false (c :: rest)).symm
  | false =>
  have hhead : (rest.map Char.toLower).head?.any Char.isDigit = rest.head?.any Char.isDigit := by
    cases rest with
    | nil => rfl
    | cons d rest => exact isDigit_toLower d
  by_cases hnumber : (c = '-' ∨ c = '+') ∧ signed ∧ rest.head?.any Char.isDigit
  · unfold read
    rw [hhead]
    simp only [hstart, hdigit, Bool.false_eq_true, if_false, if_pos hnumber,
      Literal.number_map_toLower, Literal.number_map_lowered]
  by_cases hc : c ∈ ['"', '\x27', '#', '%', '<', '>', '=']
  · exact read_mark_map_toLower h hc
  · rw [read_sign hstart hdigit (hhead ▸ hnumber) hc, read_sign hstart hdigit hnumber hc]
    cases sign? c <;> rfl

theorem StartsText.congr {c c' : Char} {rest rest' : List Char} (h : StartsText c rest)
    (hc : c'.toLower = c.toLower) (hr : rest'.map Char.toLower = rest.map Char.toLower) :
    StartsText c' rest' := by
  rcases h with rfl | rfl | ⟨rfl, body, rfl⟩
  · exact Or.inl ((toLower_eq_iff (by decide) c').mp hc)
  · exact Or.inr (Or.inl ((toLower_eq_iff (by decide) c').mp hc))
  · obtain ⟨body', rfl, -⟩ := exists_of_map_toLower hr (by decide)
    exact Or.inr (Or.inr ⟨(toLower_eq_iff (by decide) c').mp hc, body', rfl⟩)

end Cursor

def Token.isText : Token → Bool
  | .string _ | .localString _ => true
  | _ => false

/-- A string is read whatever follows it. -/
theorem Cursor.read_startsText {signed : Bool} {c : Char} {w rest : List Char} {t : Token}
    (h : StartsText c (w ++ rest)) (hr : read signed c (w ++ rest) = .ok t w.length) :
    t.isText ∧ ∀ rest', read signed c (w ++ rest') = .ok t w.length := by
  rcases h with rfl | rfl | ⟨rfl, body, he⟩
  · obtain ⟨bytes, hb, rfl⟩ := Reading.map_eq_ok_iff.mp hr
    exact ⟨rfl, fun rest' =>
      Reading.map_eq_ok_iff.mpr ⟨bytes, Literal.string_append hb rest', rfl⟩⟩
  · obtain ⟨bytes, hb, rfl⟩ := Reading.map_eq_ok_iff.mp hr
    exact ⟨rfl, fun rest' =>
      Reading.map_eq_ok_iff.mpr ⟨bytes, Literal.string_append hb rest', rfl⟩⟩
  · rw [he] at hr
    have hr : ((Literal.string '"' body).map Token.localString).after 1 = .ok t w.length := hr
    obtain ⟨hres, hlen⟩ := Reading.after_eq_ok_iff.mp hr
    cases w with
    | nil =>
      rw [List.length_nil] at hlen
      omega
    | cons d w =>
      rw [List.cons_append] at he
      obtain ⟨rfl, rfl⟩ := List.cons.inj he
      have hw : (Literal.string '"' (w ++ rest)).map Token.localString = .ok t w.length :=
        Reading.eq_ok_iff.mpr ⟨hres, by rw [List.length_cons] at hlen; omega⟩
      obtain ⟨bytes, hb, rfl⟩ := Reading.map_eq_ok_iff.mp hw
      refine ⟨rfl, fun rest' => ?_⟩
      have hw' : (Literal.string '"' (w ++ rest')).map Token.localString =
          .ok (.localString bytes) w.length :=
        Reading.map_eq_ok_iff.mpr ⟨bytes, Literal.string_append hb rest', rfl⟩
      show ((Literal.string '"' (w ++ rest')).map Token.localString).after 1 = _
      rw [hw', List.length_cons, Nat.add_comm]
      rfl

/-- The front of a text in another case is read alike, provided that a string is the same. -/
theorem FrontReads.recase {signed : Bool} {w w' rest rest' : List Char} {t : Token}
    (h : FrontReads signed w rest t) (hw : w'.map Char.toLower = w.map Char.toLower)
    (hr : rest'.map Char.toLower = rest.map Char.toLower) (ht : t.isText → w' = w) :
    ∃ t', FrontReads signed w' rest' t' ∧ t.Alike lowerCase t' := by
  obtain ⟨c, cs, rfl, hf, hread⟩ := h
  obtain ⟨c', cs', rfl, hc, hcs⟩ := List.map_eq_cons_iff.mp hw
  have hall : (cs' ++ rest').map Char.toLower = (cs ++ rest).map Char.toLower := by
    rw [List.map_append, List.map_append, hcs, hr]
  have hfront : Blank.front (c' :: (cs' ++ rest')) = .other := by
    rw [← hf, ← Blank.front_map_toLower, ← Blank.front_map_toLower (c :: _), List.map_cons,
      List.map_cons, hc, hall]
  by_cases hs : Cursor.StartsText c (cs ++ rest)
  · obtain ⟨htext, hany⟩ := Cursor.read_startsText hs hread
    obtain ⟨rfl, rfl⟩ := List.cons.inj (ht htext)
    exact ⟨t, ⟨c', cs', rfl, hfront, hany rest'⟩, .refl t⟩
  · have hs' : ¬ Cursor.StartsText c' (cs' ++ rest') := fun h => hs (h.congr hc.symm hall.symm)
    have hlowered : (Cursor.read signed c' (cs' ++ rest')).map Token.lowered =
        .ok t.lowered cs.length := by
      rw [← Cursor.read_map_toLower hs', hc, hall, Cursor.read_map_toLower hs, hread]
      rfl
    obtain ⟨t', ht', hlower⟩ := Reading.map_eq_ok_iff.mp hlowered
    have hlen : cs.length = cs'.length := by simpa using (congrArg List.length hcs).symm
    exact ⟨t', ⟨c', cs', rfl, hfront, hlen ▸ ht'⟩, Token.alike_of_lowered hlower.symm⟩

theorem Blank.run_map_toLower (cs : List Char) : run (cs.map Char.toLower) = run cs :=
  runFrom_map_toLower 0 cs

theorem Cursor.next?_eq_none_iff {c : Cursor} :
    c.next? = none ↔ c.rest.length ≤ (Blank.run c.rest).length := by
  rw [← List.drop_eq_nil_iff, ← rest_skip]
  unfold next?
  dsimp only
  split <;> simp_all

theorem size_eq_of_map_toLower {cs ds : List Char} (h : cs.map Char.toLower = ds.map Char.toLower) :
    Utf8.size cs = Utf8.size ds := by
  rw [← size_map_toLower cs, h, size_map_toLower]

/-- In another case a step takes as much, and gives a token that differs in its name only. -/
theorem Cursor.Takes.recase {c d : Cursor} {l : Lexeme} {gap w : List Char} (hs : c.Takes d l gap w)
    {before before' rest' : List Char} (ho : c.offset = Utf8.size before)
    (hb : Utf8.size before' = Utf8.size before)
    (hr : rest'.map Char.toLower = c.rest.map Char.toLower)
    (ht : l.token.isText → (Utf8.encode (before' ++ rest')).extract l.span.start l.span.stop =
      (Utf8.encode (before ++ c.rest)).extract l.span.start l.span.stop) :
    ∃ taken tail t', rest' = taken ++ tail ∧ Utf8.size taken = Utf8.size (gap ++ w) ∧
      tail.map Char.toLower = d.rest.map Char.toLower ∧ l.token.Alike lowerCase t' ∧
      next? ⟨rest', c.offset, c.afterOperand⟩ =
        some (.ok ⟨t', l.span⟩, ⟨tail, d.offset, d.afterOperand⟩) := by
  have hparts := hr
  rw [hs.rest, List.map_append, List.map_append] at hparts
  obtain ⟨gap', tail, rfl, hgap, htail⟩ := List.map_eq_append_iff.mp hparts
  obtain ⟨w', rest', rfl, hw, hrest⟩ := List.map_eq_append_iff.mp htail
  have hgapSize := size_eq_of_map_toLower hgap
  have hwSize := size_eq_of_map_toLower hw
  have hlen : gap'.length = gap.length := by simpa using congrArg List.length hgap
  have hrun : Blank.run (gap' ++ (w' ++ rest')) = ⟨gap'.length, false⟩ := by
    rw [← Blank.run_map_toLower, hr, Blank.run_map_toLower, hs.run, hlen]
  have hsame : l.token.isText → w' = w := by
    intro htext
    have he := ht htext
    have h1 := Utf8.extract_encode (before ++ gap) w d.rest
    have h2 := Utf8.extract_encode (before' ++ gap') w' rest'
    rw [hs.span, hs.offset, hs.rest, ho] at he
    rw [List.append_assoc, Utf8.size_append] at h1 h2
    rw [hb, hgapSize, hwSize] at h2
    exact Utf8.encode_injective (h2.symm.trans (he.trans h1))
  have hempty : gap'.isEmpty = gap.isEmpty := by
    cases gap <;> cases gap' <;> simp_all
  obtain ⟨t', hfront, halike⟩ := hs.front.recase hw hrest hsame
  rw [← hempty] at hfront
  have hn := next?_of_frontReads hrun hfront c.offset
  rw [hgapSize, hwSize, ← hs.offset, ← hs.span, halike.isOperand, ← hs.afterOperand] at hn
  refine ⟨gap' ++ w', rest', t', by rw [List.append_assoc], ?_, hrest, halike, hn⟩
  rw [Utf8.size_append, Utf8.size_append, hgapSize, hwSize]

namespace Lexes

/-- The same source in another case, provided that its strings are the same. -/
theorem recase {c : Cursor} {ls : List Lexeme} (h : Lexes c ls) (before before' : List Char)
    {rest' : List Char} (ho : c.offset = Utf8.size before) (hb : Utf8.size before' = Utf8.size before)
    (hr : rest'.map Char.toLower = c.rest.map Char.toLower)
    (ht : ∀ l ∈ ls, l.token.isText →
      (Utf8.encode (before' ++ rest')).extract l.span.start l.span.stop =
        (Utf8.encode (before ++ c.rest)).extract l.span.start l.span.stop) :
    ∃ ls', Lexes ⟨rest', c.offset, c.afterOperand⟩ ls' ∧
      List.Forall₂ (fun l l' => l'.span = l.span ∧ l.token.Alike lowerCase l'.token) ls ls' := by
  induction h generalizing before before' rest' with
  | @done c h =>
    have hlen : rest'.length = c.rest.length := by simpa using congrArg List.length hr
    refine ⟨[], .done (Cursor.next?_eq_none_iff.mpr ?_), .nil⟩
    rw [← Blank.run_map_toLower, hr, Blank.run_map_toLower, hlen]
    exact Cursor.next?_eq_none_iff.mp h
  | @step c d l ls h hls ih =>
    obtain ⟨gap, w, hs⟩ := Cursor.exists_takes h
    obtain ⟨taken, tail, t', rfl, hsize, htail, halike, hn⟩ :=
      hs.recase ho hb hr (ht l List.mem_cons_self)
    have hoff : d.offset = Utf8.size (before ++ (gap ++ w)) := by
      rw [hs.offset, ho, Utf8.size_append, Utf8.size_append, Nat.add_assoc]
    have hoff' : Utf8.size (before' ++ taken) = Utf8.size (before ++ (gap ++ w)) := by
      rw [Utf8.size_append, Utf8.size_append, hb, hsize]
    obtain ⟨ls', hl', hrel⟩ := ih _ _ hoff hoff' htail fun m hm => by
      rw [List.append_assoc, List.append_assoc, List.append_assoc, ← hs.rest]
      exact ht m (List.mem_cons_of_mem l hm)
    exact ⟨_, .step hn hl', .cons ⟨rfl, halike⟩ hrel⟩

end Lexes

theorem LineMap.startsAfter_congr {cs ds : List Char}
    (h : cs.map Char.toLower = ds.map Char.toLower) (offset : Nat) :
    startsAfter offset cs = startsAfter offset ds := by
  induction cs generalizing ds offset with
  | nil =>
    obtain rfl := List.map_eq_nil_iff.mp h.symm
    rfl
  | cons c cs ih =>
    obtain ⟨d, ds, rfl, hd, hds⟩ := List.map_eq_cons_iff.mp h.symm
    have hsize : d.utf8Size = c.utf8Size := by rw [← utf8Size_toLower, hd, utf8Size_toLower]
    have hline : d = '\n' ↔ c = '\n' := by
      rw [← toLower_eq_iff (k := '\n') (by decide), hd, toLower_eq_iff (by decide)]
    rw [startsAfter, startsAfter, ih hds.symm, hsize]
    simp only [hline]

theorem keepsNames_lowerCase : KeepsNames lowerCase := by
  have hmap : ∀ cs, (Utf8.encode (cs.map Char.toLower)).map Checksum.normalizeByte =
      (Utf8.encode cs).map Checksum.normalizeByte := by
    intro cs
    induction cs with
    | nil => rfl
    | cons c cs ih =>
      rw [List.map_cons, Utf8.encode_cons, Utf8.encode_cons, List.map_append, List.map_append, ih,
        normalizeByte_toLower]
  intro text text' h
  have h' : text.toList.map Char.toLower = text'.toList.map Char.toLower := h
  rw [Checksum.normalize, Checksum.normalize, Utf8.ofString, Utf8.ofString, ← hmap, h', hmap]

/-- Two sources that differ in the case of letters only, and not within strings, have tokens at the
same places that differ in the case of names only. Their streams differ in the letters of the tables
of names only, if there are any. A span is compared as the place of its token, so that spans of any
fixed width that are cut from it agree as well. -/
theorem compile_recase {source source' : String} {ls : List Lexeme}
    (hl : Lexeme.ofText source.toList = .ok ls) (hcase : lowerCase source' = lowerCase source)
    (htext : ∀ l ∈ ls, l.token.isText →
      (Utf8.ofString source').extract l.span.start l.span.stop =
        (Utf8.ofString source).extract l.span.start l.span.stop) :
    (∃ ls', Lexeme.ofText source'.toList = .ok ls' ∧
      List.Forall₂ (fun l l' => l'.span = l.span ∧ l.token.Alike lowerCase l'.token) ls ls') ∧
    ∀ options : CompileOptions,
      (∃ b b', compile options source = .ok b ∧ compile options source' = .ok b' ∧
        b.Alike lowerCase b') ∨
        ∃ e e', compile options source = .error e ∧ compile options source' = .error e' := by
  obtain ⟨ls', hls', hrel⟩ := (Lexeme.ofText_eq_ok_iff.mp hl).recase [] [] rfl rfl hcase htext
  have hl' : Lexeme.ofText source'.toList = .ok ls' := Lexeme.ofText_eq_ok_iff.mpr hls'
  refine ⟨⟨ls', hl', hrel⟩, fun options => ?_⟩
  have halike : List.Forall₂ (Lexeme.Alike lowerCase Eq) ls ls' :=
    hrel.imp fun l l' h => ⟨h.2, by rw [h.1]⟩
  have hlines : LineMap.ofText source'.toList = LineMap.ofText source.toList := by
    rw [LineMap.ofText, LineMap.ofText, LineMap.startsAfter_congr hcase]
  refine compile_alike_or_error options keepsNames_lowerCase hl hl' halike fun _ s s' hs => ?_
  rw [hs, hlines]

theorem compile_recase_words :
    (∃ ls, Lexeme.ofText "IF Ab = \x22xY\x22\n0XfF <aB> EndIf".toList = .ok ls ∧
      ∀ l ∈ ls, l.token.isText →
        (Utf8.ofString "if aB = \x22xY\x22\n0xFf <ab> ENDIF").extract l.span.start l.span.stop =
          (Utf8.ofString "IF Ab = \x22xY\x22\n0XfF <aB> EndIf").extract l.span.start l.span.stop) ∧
    lowerCase "if aB = \x22xY\x22\n0xFf <ab> ENDIF" = lowerCase "IF Ab = \x22xY\x22\n0XfF <aB> EndIf" ∧
    ∃ b b', compile ⟨.plain, true⟩ "IF Ab = \x22xY\x22\n0XfF <aB> EndIf" = .ok b ∧
      compile ⟨.plain, true⟩ "if aB = \x22xY\x22\n0xFf <ab> ENDIF" = .ok b' ∧ b ≠ b' ∧
      b.Alike lowerCase b' := by
  have hl : Lexeme.ofText "IF Ab = \x22xY\x22\n0XfF <aB> EndIf".toList =
      .ok [⟨.simple .if, ⟨0, 2⟩⟩, ⟨.name "Ab", ⟨3, 5⟩⟩, ⟨.simple .equals, ⟨6, 7⟩⟩,
        ⟨.string [120, 89], ⟨8, 12⟩⟩, ⟨.simple .endOfLine, ⟨12, 13⟩⟩, ⟨.hexInteger 255, ⟨13, 17⟩⟩,
        ⟨.arg "aB", ⟨18, 22⟩⟩, ⟨.simple .endIf, ⟨23, 28⟩⟩] := by decide +kernel
  have hcase : lowerCase "if aB = \x22xY\x22\n0xFf <ab> ENDIF" =
      lowerCase "IF Ab = \x22xY\x22\n0XfF <aB> EndIf" := by decide +kernel
  have htext : ∀ l ∈ [(⟨.simple .if, ⟨0, 2⟩⟩ : Lexeme), ⟨.name "Ab", ⟨3, 5⟩⟩,
      ⟨.simple .equals, ⟨6, 7⟩⟩, ⟨.string [120, 89], ⟨8, 12⟩⟩, ⟨.simple .endOfLine, ⟨12, 13⟩⟩,
      ⟨.hexInteger 255, ⟨13, 17⟩⟩, ⟨.arg "aB", ⟨18, 22⟩⟩, ⟨.simple .endIf, ⟨23, 28⟩⟩],
      l.token.isText →
      (Utf8.ofString "if aB = \x22xY\x22\n0xFf <ab> ENDIF").extract l.span.start l.span.stop =
        (Utf8.ofString "IF Ab = \x22xY\x22\n0XfF <aB> EndIf").extract l.span.start l.span.stop := by
    decide +kernel
  have hdiffer : compile ⟨.plain, true⟩ "IF Ab = \x22xY\x22\n0XfF <aB> EndIf" ≠
      compile ⟨.plain, true⟩ "if aB = \x22xY\x22\n0xFf <ab> ENDIF" := by decide +kernel
  have hok : (compile ⟨.plain, true⟩ "IF Ab = \x22xY\x22\n0XfF <aB> EndIf").toOption.isSome := by
    decide +kernel
  refine ⟨⟨_, hl, htext⟩, hcase, ?_⟩
  rcases (compile_recase hl hcase htext).2 ⟨.plain, true⟩ with ⟨b, b', hb, hb', h⟩ | ⟨e, -, he, -⟩
  · refine ⟨b, b', hb, hb', ?_, h⟩
    rintro rfl
    exact hdiffer (hb.trans hb'.symm)
  · rw [he] at hok
    cases hok

end QbScript
