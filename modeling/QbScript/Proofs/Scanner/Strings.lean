import QbScript.Proofs.Scanner.Readings

/-!
# Scanning strings

A string is scanned byte by byte and read character by character. An escape takes the digits that
follow it either way, and the bytes of a character that has several stay together.
-/

set_option autoImplicit false

namespace QbScript

namespace Literal

variable {mark c e : Char} {n m : Nat} {cs w rest : List Char}

theorem bodyLength_cons (h1 : c ≠ '\\') (h2 : c ≠ '\n') (h3 : c ≠ mark) (n : Nat)
    (cs : List Char) : bodyLength mark n (c :: cs) = bodyLength mark (n + 1) cs := by
  rw [bodyLength, if_neg h2, if_neg h3]
  · exact fun he _ => h1 he
  · exact fun _ _ he _ => h1 he

theorem bodyLength_append (h : ∀ c ∈ w, c ≠ '\\' ∧ c ≠ '\n' ∧ c ≠ mark) (n : Nat)
    (cs : List Char) : bodyLength mark n (w ++ cs) = bodyLength mark (n + w.length) cs := by
  induction w generalizing n with
  | nil => rfl
  | cons c w ih =>
    obtain ⟨h1, h2, h3⟩ := h c List.mem_cons_self
    rw [List.cons_append, bodyLength_cons h1 h2 h3, ih fun d hd => h d (List.mem_cons_of_mem c hd),
      List.length_cons, Nat.add_assoc, Nat.add_comm 1]

/-- A count of characters that are read before is added. -/
theorem bodyLength_add (mark : Char) (n m : Nat) (cs : List Char) :
    bodyLength mark (n + m) cs = match bodyLength mark m cs with
      | .ok k => .ok (n + k)
      | .error k => .error (n + k) := by
  fun_induction bodyLength mark m cs with
  | case1 m => rfl
  | case2 m => rfl
  | case3 m e rest ih => rw [bodyLength, ← ih, Nat.add_assoc]
  | case4 m rest h1 h2 =>
    rw [bodyLength, if_pos rfl, Nat.add_assoc]
    · exact h1
    · exact h2
  | case5 m rest h1 h2 h3 =>
    rw [bodyLength, if_neg h3, if_pos rfl]
    · exact h1
    · exact h2
  | case6 m c rest h1 h2 h3 h4 ih =>
    rw [bodyLength, if_neg h3, if_neg h4, Nat.add_assoc, ih]
    · exact h1
    · exact h2

/-- The text of a string goes up to its closing mark. -/
theorem exists_of_bodyLength (h : bodyLength mark n cs = .ok m) :
    ∃ w rest, cs = w ++ mark :: rest ∧ m = n + w.length := by
  fun_induction bodyLength mark n cs with
  | case1 => cases h
  | case2 => cases h
  | case3 n e rest ih =>
    obtain ⟨w, tail, rfl, rfl⟩ := ih h
    exact ⟨'\\' :: e :: w, tail, rfl, by simp only [List.length_cons]; omega⟩
  | case4 => cases h
  | case5 n rest => exact ⟨[], rest, rfl, (Except.ok.inj h).symm⟩
  | case6 n c rest _ _ _ _ ih =>
    obtain ⟨w, tail, rfl, rfl⟩ := ih h
    exact ⟨c :: w, tail, rfl, by simp only [List.length_cons]; omega⟩

theorem unescapeFrom_append (more done : List UInt8) (cs : List Char) :
    unescapeFrom (more ++ done) cs = done.reverse ++ unescapeFrom more cs := by
  fun_induction unescapeFrom more cs with
  | case1 more => rw [unescapeFrom, List.reverse_append]
  | case2 more e rest ih => rw [unescapeFrom, ← List.append_assoc, ih]
  | case3 more c rest hne ih =>
    rw [unescapeFrom, ← List.append_assoc, ih]
    exact hne

theorem unescape_cons (h : c ≠ '\\') (cs : List Char) :
    unescape (c :: cs) = String.utf8EncodeChar c ++ unescape cs := by
  rw [unescape, unescapeFrom, List.append_nil, ← List.nil_append (List.reverse _),
    unescapeFrom_append, List.reverse_reverse, unescape]
  exact fun _ _ he _ => h he

theorem unescape_escape (e : Char) (cs : List Char) :
    unescape ('\\' :: e :: cs) = (escape e cs).1 ++ unescape (cs.drop (escape e cs).2) := by
  rw [unescape, unescapeFrom, List.append_nil, ← List.nil_append (List.reverse _),
    unescapeFrom_append, List.reverse_reverse, unescape]

/-- Of what follows, an escape only looks at two digits. -/
theorem escape_congr {e : Char} {cs ds : List Char}
    (h : ∀ p, (p = isHexDigit ∨ p = isOctalDigit) →
      (cs.take 2).takeWhile p = (ds.take 2).takeWhile p) : escape e cs = escape e ds := by
  unfold escape
  rw [h _ (Or.inl rfl), h _ (Or.inr rfl)]

theorem isHexDigit_of_isOctalDigit (h : isOctalDigit c) : isHexDigit c := by
  simp only [isOctalDigit, Bool.and_eq_true, decide_eq_true_eq] at h
  simp only [isHexDigit, Char.isDigit, Bool.or_eq_true, Bool.and_eq_true, decide_eq_true_eq]
  exact Or.inl (Or.inl ⟨h.1, h.2.trans (by decide)⟩)

/-- What belongs to an escape is digits. -/
theorem exists_escape (e : Char) (cs : List Char) :
    ∃ ds rest, cs = ds ++ rest ∧ (escape e cs).2 = ds.length ∧ ∀ c ∈ ds, isHexDigit c := by
  have hdigits : ∀ p : Char → Bool, (∀ c, p c → isHexDigit c) →
      ∃ ds rest, cs = ds ++ rest ∧ ((cs.take 2).takeWhile p).length = ds.length ∧
        ∀ c ∈ ds, isHexDigit c := by
    intro p hp
    have hpre : (cs.take 2).takeWhile p <+: cs :=
      (List.takeWhile_prefix p).trans (List.take_prefix 2 cs)
    obtain ⟨rest, hrest⟩ := hpre
    exact ⟨_, rest, hrest.symm, rfl, fun c hc => hp c (List.mem_takeWhile_imp hc)⟩
  have hnone : ∃ ds rest, cs = ds ++ rest ∧ 0 = ds.length ∧ ∀ c ∈ ds, isHexDigit c :=
    ⟨[], cs, rfl, rfl, by simp⟩
  unfold escape
  split
  all_goals try exact hnone
  · dsimp only
    split
    · exact hnone
    · exact hdigits isHexDigit fun _ => id
  · split
    · exact hdigits isOctalDigit fun _ => isHexDigit_of_isOctalDigit
    · exact hnone

/-! ### One step of a string -/

theorem string_mark (hmark : mark = '"' ∨ mark = '\x27') (cs : List Char) :
    string mark (mark :: cs) = .ok [] 1 := by
  have hlen : bodyLength mark 0 (mark :: cs) = .ok 0 := by
    rcases hmark with rfl | rfl
    · rfl
    · rfl
  rw [string, hlen]
  simp only [List.take_zero, unescape, unescapeFrom, List.reverse_nil]

theorem string_cons (h1 : c ≠ '\\') (h2 : c ≠ '\n') (h3 : c ≠ mark) (cs : List Char) :
    string mark (c :: cs) =
      ((string mark cs).map (String.utf8EncodeChar c ++ ·)).after 1 := by
  have hlen := bodyLength_add mark 1 0 cs
  rw [string, string, bodyLength_cons h1 h2 h3, Nat.zero_add, hlen]
  cases bodyLength mark 0 cs with
  | error m => rfl
  | ok m =>
    simp only [Nat.add_comm 1 m, List.take_succ_cons, unescape_cons h1]
    simp only [Reading.after, Reading.map, Reading.ok, Except.map, Nat.add_comm]

theorem takeWhile_take_append {p : Char → Bool} (hp : p c = false) (w : List Char) (n : Nat)
    (cs : List Char) : ((w ++ c :: cs).take n).takeWhile p = (w.take n).takeWhile p := by
  induction w generalizing n with
  | nil =>
    cases n with
    | zero => rfl
    | succ n =>
      rw [List.nil_append, List.take_succ_cons, List.takeWhile_cons_of_neg (by simp [hp]),
        List.take_nil, List.takeWhile_nil]
  | cons d w ih =>
    cases n with
    | zero => rfl
    | succ n =>
      rw [List.cons_append, List.take_succ_cons, List.take_succ_cons, List.takeWhile_cons,
        List.takeWhile_cons, ih]

/-- An escape takes none of its digits from the rest of the string. -/
theorem string_escape (hmark : mark = '"' ∨ mark = '\x27') (e : Char) (cs : List Char) :
    string mark ('\\' :: e :: cs) =
      ((string mark (cs.drop (escape e cs).2)).map ((escape e cs).1 ++ ·)).after
        (2 + (escape e cs).2) := by
  obtain ⟨ds, rest, rfl, hlen, hds⟩ := exists_escape e cs
  have hplain : ∀ c ∈ ds, c ≠ '\\' ∧ c ≠ '\n' ∧ c ≠ mark := by
    intro c hc
    refine ⟨?_, ?_, ?_⟩
    · rintro rfl
      exact absurd (hds _ hc) (by decide)
    · rintro rfl
      exact absurd (hds _ hc) (by decide)
    · rintro rfl
      rcases hmark with rfl | rfl
      all_goals exact absurd (hds _ hc) (by decide)
  have hbody : bodyLength mark 0 ('\\' :: e :: (ds ++ rest)) =
      bodyLength mark (2 + ds.length + 0) rest := by
    rw [bodyLength, bodyLength_append hplain, Nat.zero_add, Nat.add_zero]
  rw [string, hbody, bodyLength_add, hlen, List.drop_left, string]
  cases hb : bodyLength mark 0 rest with
  | error m => rfl
  | ok m =>
    obtain ⟨w, tail, rfl, rfl⟩ := exists_of_bodyLength hb
    have hstop : isHexDigit mark = false ∧ isOctalDigit mark = false := by
      rcases hmark with rfl | rfl
      all_goals decide
    have hsame : escape e (ds ++ (w ++ mark :: tail)) = escape e (ds ++ w) := by
      rw [← List.append_assoc]
      refine escape_congr fun p hp => ?_
      rcases hp with rfl | rfl
      · exact takeWhile_take_append hstop.1 _ 2 tail
      · exact takeWhile_take_append hstop.2 _ 2 tail
    have htake : ('\\' :: e :: (ds ++ (w ++ mark :: tail))).take (2 + ds.length + (0 + w.length)) =
        '\\' :: e :: (ds ++ w) := by
      rw [show 2 + ds.length + (0 + w.length) = (ds ++ w).length + 1 + 1 by
          rw [List.length_append]; omega,
        List.take_succ_cons, List.take_succ_cons, ← List.append_assoc, List.take_left]
    have htail : (w ++ mark :: tail).take (0 + w.length) = w := by rw [Nat.zero_add, List.take_left]
    rw [hsame] at hlen ⊢
    simp only [htake, htail, unescape_escape, hlen, List.drop_left]
    simp only [Reading.after, Reading.map, Reading.ok, Except.map, Nat.add_assoc, Nat.zero_add]

end Literal

namespace Scanner

open Utf8

variable {bs : List UInt8} {off : Nat} {mark c : Char} {cs w : List Char}

theorem stringFrom_append {bytes : List UInt8}
    (h : ∀ b ∈ bytes, byteChar b ≠ '\\' ∧ byteChar b ≠ '\n' ∧ byteChar b ≠ mark)
    (done : List UInt8) (off : Nat) (rest : List UInt8) :
    stringFrom mark done off (bytes ++ rest) =
      stringFrom mark (bytes.reverse ++ done) (off + bytes.length) rest := by
  induction bytes generalizing done off with
  | nil => rfl
  | cons b bytes ih =>
    obtain ⟨h1, h2, h3⟩ := h b List.mem_cons_self
    have hstep : stringFrom mark done off (b :: (bytes ++ rest)) =
        stringFrom mark (b :: done) (off + 1) (bytes ++ rest) := by
      rw [stringFrom.eq_def]
      simp only [if_neg h1, if_neg h2, if_neg h3]
    rw [List.cons_append, hstep, ih fun d hd => h d (List.mem_cons_of_mem b hd), List.reverse_cons,
      List.append_assoc, List.length_cons, Nat.add_assoc, Nat.add_comm 1]
    rfl

/-- The digits after an escape are the same among the bytes. -/
theorem takeWhile_take_map_byteChar {p : Char → Bool} (hp : ∀ c, p c → c.toNat < 0x80) (n : Nat)
    (cs : List Char) :
    (((encode cs).map byteChar).take n).takeWhile p = (cs.take n).takeWhile p := by
  induction n generalizing cs with
  | zero => rfl
  | succ n ih =>
    cases cs with
    | nil => rfl
    | cons c cs =>
      rcases Nat.lt_or_ge c.toNat 0x80 with hc | hc
      · rw [encode_cons, utf8EncodeChar_of_lt hc, List.singleton_append, List.map_cons,
          byteChar_ofNat hc, List.take_succ_cons, List.take_succ_cons, List.takeWhile_cons,
          List.takeWhile_cons, ih]
      · obtain ⟨b, tail, he, -⟩ := exists_utf8EncodeChar c
        have hb : 0x80 ≤ (byteChar b).toNat := by
          rw [toNat_byteChar]
          exact le_of_mem_utf8EncodeChar hc (he ▸ List.mem_cons_self)
        rw [encode_cons, he, List.cons_append, List.map_cons, List.take_succ_cons,
          List.take_succ_cons, List.takeWhile_cons_of_neg, List.takeWhile_cons_of_neg]
        · exact fun hpc => absurd (hp c hpc) (Nat.not_lt.mpr hc)
        · exact fun hpb => absurd (hp _ hpb) (Nat.not_lt.mpr hb)

theorem plain_of_le (hmark : mark.toNat < 0x80) (hc : 0x80 ≤ c.toNat) :
    c ≠ '\\' ∧ c ≠ '\n' ∧ c ≠ mark := by
  refine ⟨?_, ?_, ?_⟩
  · rintro rfl
    exact absurd hc (by decide)
  · rintro rfl
    exact absurd hc (by decide)
  · rintro rfl
    omega

/-- The bytes of a character that ends no string are plain. -/
theorem stringFrom_encode_cons (h1 : c ≠ '\\') (h2 : c ≠ '\n') (h3 : c ≠ mark)
    (hmark : mark.toNat < 0x80) (done : List UInt8) (off : Nat) (cs : List Char) :
    stringFrom mark done off (encode (c :: cs)) =
      stringFrom mark ((String.utf8EncodeChar c).reverse ++ done) (off + c.utf8Size)
        (encode cs) := by
  rw [encode_cons, stringFrom_append, String.length_utf8EncodeChar]
  intro b hb
  rcases eq_or_le_of_mem_utf8EncodeChar hb with ⟨-, he⟩ | ⟨-, hb⟩
  · rw [he]
    exact ⟨h1, h2, h3⟩
  · exact plain_of_le hmark hb

theorem escape_eq {e : Char} (he : e.toNat < 0x80) (cs : List Char) :
    escape (UInt8.ofNat e.toNat) (encode cs) = Literal.escape e cs := by
  rw [escape, toNat_ofNat_of_lt (by omega), if_pos he, byteChar_ofNat he]
  refine Literal.escape_congr fun p hp => takeWhile_take_map_byteChar (fun c hc => ?_) 2 cs
  rcases hp with rfl | rfl
  · exact lt_of_isHexDigit c hc
  · exact lt_of_isHexDigit c (Literal.isHexDigit_of_isOctalDigit hc)

theorem escape_of_le {e : Char} (he : 0x80 ≤ e.toNat) (cs : List Char) :
    Literal.escape e cs = (String.utf8EncodeChar e, 0) := by
  have ho : ¬ isOctalDigit e := fun ho =>
    absurd (lt_of_isHexDigit e (Literal.isHexDigit_of_isOctalDigit ho)) (Nat.not_lt.mpr he)
  unfold Literal.escape
  split
  all_goals first | exact absurd he (by decide) | rw [if_neg ho]

/-- An escape takes the same characters among the bytes. -/
theorem stringFrom_escape (hmark : mark ≠ '\\') (hlt : mark.toNat < 0x80) (done : List UInt8)
    (off : Nat) (e : Char) (cs : List Char) :
    stringFrom mark done off (encode ('\\' :: e :: cs)) =
      stringFrom mark ((Literal.escape e cs).1.reverse ++ done)
        (off + size ('\\' :: e :: cs.take (Literal.escape e cs).2))
        (encode (cs.drop (Literal.escape e cs).2)) := by
  have hslash : byteChar (UInt8.ofNat '\\'.toNat) = '\\' := byteChar_ofNat (by decide)
  have hsize : ('\\').utf8Size = 1 := rfl
  rw [encode_cons_of_lt (by decide), stringFrom.eq_def]
  simp only [hslash, if_neg (show '\\' ≠ '\n' by decide), if_neg hmark.symm, if_true]
  rcases Nat.lt_or_ge e.toNat 0x80 with he | he
  · obtain ⟨ds, rest, rfl, hlen, hds⟩ := Literal.exists_escape e cs
    have hdigits : size ds = ds.length := size_of_lt fun c hc => lt_of_isHexDigit c (hds c hc)
    have hdrop : (encode (ds ++ rest)).drop ds.length = encode rest := by
      rw [encode_append, ← hdigits, ← length_encode, List.drop_left]
    rw [encode_cons_of_lt he]
    simp only [escape_eq he, hlen, hdrop, List.drop_left, List.take_left, size_cons, hdigits,
      utf8Size_of_lt he, hsize]
    rw [Nat.add_assoc off 2, ← Nat.add_assoc 1 1]
  · obtain ⟨b, more, hb, -⟩ := exists_utf8EncodeChar e
    have hle : ∀ b' ∈ b :: more, 0x80 ≤ b'.toNat := fun b' hb' =>
      le_of_mem_utf8EncodeChar he (hb ▸ hb')
    have hesc : ∀ rest, escape b rest = ([b], 0) := fun rest => by
      rw [escape, if_neg (Nat.not_lt.mpr (hle b List.mem_cons_self))]
    have hplain : ∀ b' ∈ more, byteChar b' ≠ '\\' ∧ byteChar b' ≠ '\n' ∧ byteChar b' ≠ mark :=
      fun b' hb' => plain_of_le hlt (by
        rw [toNat_byteChar]
        exact hle b' (List.mem_cons_of_mem b hb'))
    have hlen : e.utf8Size = more.length + 1 := by
      rw [← String.length_utf8EncodeChar, hb, List.length_cons]
    rw [encode_cons, hb, List.cons_append]
    simp only [hesc, List.drop_zero, stringFrom_append hplain, escape_of_le he, hb, size_cons,
      List.take_zero, size_nil, hlen, hsize, List.reverse_cons, List.append_assoc,
      List.reverse_nil, List.nil_append, List.cons_append]
    congr 1
    omega

/-- The bytes before a reading come before those that it reads. -/
theorem change_after (done xs : List UInt8) (r : Reading (List UInt8)) (w : List Char) :
    change (done.reverse ++ ·) (ofReading ((r.map (xs ++ ·)).after w.length) off (w ++ cs)) =
      change ((xs.reverse ++ done).reverse ++ ·) (ofReading r (off + size w) cs) := by
  rw [ofReading_append, change_ofReading, change_ofReading]
  obtain ⟨result, n⟩ := r
  cases result with
  | error m => rfl
  | ok bytes =>
    simp only [Reading.map, Except.map, List.reverse_append, List.reverse_reverse,
      List.append_assoc]

theorem stringFrom_eq (hmark : mark = '"' ∨ mark = '\x27') (done : List UInt8) (off : Nat)
    (cs : List Char) : stringFrom mark done off (encode cs) =
      change (done.reverse ++ ·) (ofReading (Literal.string mark cs) off cs) := by
  have hlt : mark.toNat < 0x80 := by
    rcases hmark with rfl | rfl
    all_goals decide
  induction hn : cs.length using Nat.strong_induction_on generalizing done off cs with
  | _ n ih =>
  subst hn
  cases cs with
  | nil =>
    rw [encode_nil, stringFrom]
    rfl
  | cons c cs =>
    by_cases h2 : c = '\n'
    · subst h2
      rw [encode_cons_of_lt (by decide), stringFrom.eq_def]
      rfl
    by_cases h3 : c = mark
    · subst h3
      rw [encode_cons_of_lt hlt, stringFrom.eq_def, Literal.string_mark hmark]
      simp only [byteChar_ofNat hlt, if_neg h2, if_true, ofReading, change, Reading.ok, Except.map,
        List.take_succ_cons, List.take_zero, List.append_nil, size_cons, size_nil, utf8Size_of_lt hlt]
    by_cases h1 : c = '\\'
    · subst h1
      cases cs with
      | nil =>
        rw [encode_cons_of_lt (by decide), encode_nil, stringFrom.eq_def]
        simp only [byteChar_ofNat (by decide : '\\'.toNat < 0x80), if_neg h2, if_neg h3, if_true]
        rfl
      | cons e cs =>
        obtain ⟨ds, rest, rfl, hlen, -⟩ := Literal.exists_escape e cs
        rw [stringFrom_escape (Ne.symm h3) hlt, Literal.string_escape hmark, hlen, List.drop_left,
          List.take_left, ih _ ?_ _ _ _ rfl]
        · have hafter := @change_after off rest done (Literal.escape e (ds ++ rest)).1
            (Literal.string mark rest) ('\\' :: e :: ds)
          rw [← hafter, List.length_cons, List.length_cons, Nat.add_comm 2]
          rfl
        · simp only [List.length_cons, List.length_append]
          omega
    rw [stringFrom_encode_cons h1 h2 h3 hlt, ih _ (by simp) _ _ _ rfl, Literal.string_cons h1 h2 h3]
    exact (change_after done _ _ [c]).symm

theorem string_eq (hmark : mark = '"' ∨ mark = '\x27') (h : At bs off cs) :
    string bs mark off = ofReading (Literal.string mark cs) off cs := by
  rw [string, h.drop_eq, stringFrom_eq hmark, change_ofReading]
  obtain ⟨result, n⟩ := Literal.string mark cs
  cases result with
  | error m => rfl
  | ok bytes => rfl

end Scanner

end QbScript
