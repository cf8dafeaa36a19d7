import QbScript.Proofs.Bytecode.Linking
import QbScript.Proofs.Bytecode.Record

/-!
# Scans

A stream is read record by record up to the end mark or to a position where no token stands. What is
read does not change when bytes follow a stream that is read to its end mark.
-/

set_option autoImplicit false

namespace QbScript

namespace Bytecode

variable {b : Bytecode} {pos : Nat} {t : Token} {bs : List UInt8}

theorem scanFrom_of_error {e : Error} (h : b.tokenEnd pos = .error e) :
    b.scanFrom pos = ⟨[], some e⟩ := by
  rw [scanFrom, tokenAt_eq_error_iff.mpr h]

theorem scanFrom_of_record (ht : t.Record bs) (hb : b.HoldsAt pos bs) :
    b.scanFrom pos =
      ⟨(pos, t) :: (b.scanFrom (pos + bs.length)).tokens, (b.scanFrom (pos + bs.length)).fault⟩ := by
  obtain ⟨hend, hat⟩ := reads_of_record ht hb
  rw [scanFrom, hat]
  dsimp only
  split
  · rename_i e he
    rw [hend] at he
    cases he
  · rename_i he
    rw [hend] at he
    cases he
  · rename_i next he
    rw [hend] at he
    cases he
    rfl

/-- Induction along a scan: a property of what is read from each position on. -/
theorem scanFrom_induction {motive : Nat → Scan → Prop}
    (fault : ∀ pos e, b.tokenEnd pos = .error e → motive pos ⟨[], some e⟩)
    (final : ∀ pos, b.HoldsAt pos [0] → motive pos ⟨[(pos, .simple .endOfFile)], none⟩)
    (record : ∀ pos t bs s, Token.Record t bs → b.HoldsAt pos bs →
      motive (pos + bs.length) s → motive pos ⟨(pos, t) :: s.tokens, s.fault⟩)
    (pos : Nat) : motive pos (b.scanFrom pos) := by
  -- The induction is on a bound of the bytes that are left; every record takes at least one of them.
  suffices h : ∀ n pos, b.size - pos ≤ n → motive pos (b.scanFrom pos) from h _ pos le_rfl
  intro n
  induction n with
  | zero =>
    intro pos hn
    cases hend : b.tokenEnd pos with
    | error e =>
      rw [scanFrom_of_error hend]
      exact fault pos e hend
    | ok next =>
      obtain ⟨tag, htag, -⟩ := bind_eq_ok_iff.mp hend
      have := lt_size_of_tagAt_eq_ok htag
      omega
  | succ n ih =>
    intro pos hn
    rcases hend : b.tokenEnd pos with e | _ | next
    · rw [scanFrom_of_error hend]
      exact fault pos e hend
    · have hb := tokenEnd_eq_none_iff.mp hend
      rw [scanFrom_endOfFile hb]
      exact final pos hb
    · obtain ⟨t, bs, ht, hb, -⟩ := holdsRecord_of_tokenEnd hend
      have hs := hb.size_le
      have hne := List.length_pos_iff.mpr ht.ne_nil
      rw [scanFrom_of_record ht hb]
      exact record pos t bs _ ht hb (ih _ (by omega))

/-- A stream that is read to its end mark is read the same when bytes follow it. -/
theorem scanFrom_append (x : Bytecode) (h : (b.scanFrom pos).fault = none) :
    (b ++ x).scanFrom pos = b.scanFrom pos := by
  have hx : ∀ {pos bs}, b.HoldsAt pos bs → Bytecode.HoldsAt (b ++ x) pos bs :=
    fun hb => hb.append_right x.toList
  revert h
  refine scanFrom_induction (motive := fun pos s => s.fault = none → (b ++ x).scanFrom pos = s)
    ?_ ?_ ?_ pos
  · intro pos e _ h
    cases h
  · intro pos hb _
    exact scanFrom_endOfFile (hx hb)
  · intro pos t bs s ht hb ih h
    rw [scanFrom_of_record ht (hx hb), ih h]

theorem scan_append (x : Bytecode) (h : b.scan.fault = none) : (b ++ x).scan = b.scan :=
  scanFrom_append x h

/-- A scan without a fault ends at an end mark. -/
theorem exists_final_of_scanFrom (h : (b.scanFrom pos).fault = none) :
    ∃ e, (b.scanFrom pos).tokens.getLast? = some (e, .simple .endOfFile) ∧ e < b.size := by
  revert h
  refine scanFrom_induction
    (motive := fun _ s => s.fault = none →
      ∃ e, s.tokens.getLast? = some (e, .simple .endOfFile) ∧ e < b.size) ?_ ?_ ?_ pos
  · intro pos e _ h
    cases h
  · intro pos hb _
    exact ⟨pos, rfl, hb.size_le⟩
  · intro pos t bs s _ _ ih h
    obtain ⟨e, he, hlt⟩ := ih h
    refine ⟨e, ?_, hlt⟩
    rw [List.getLast?_cons, he]
    rfl

/-- Every token of a scan stands in the stream. -/
theorem exists_record_of_mem_scanFrom {p : Nat × Token} (h : p ∈ (b.scanFrom pos).tokens) :
    p.2 = .simple .endOfFile ∧ b.HoldsAt p.1 [0] ∨ ∃ bs, p.2.Record bs ∧ b.HoldsAt p.1 bs := by
  revert h
  refine scanFrom_induction
    (motive := fun _ s => p ∈ s.tokens →
      p.2 = .simple .endOfFile ∧ b.HoldsAt p.1 [0] ∨
        ∃ bs, p.2.Record bs ∧ b.HoldsAt p.1 bs) ?_ ?_ ?_ pos
  · intro pos e _ h
    cases h
  · intro pos hb h
    obtain rfl := List.mem_singleton.mp h
    exact Or.inl ⟨rfl, hb⟩
  · intro pos t bs s ht hb ih h
    rcases List.mem_cons.mp h with rfl | h
    · exact Or.inr ⟨bs, ht, hb⟩
    · exact ih h

/-- The tokens of a scan stand one after the other, each in the stream. -/
theorem pairwise_scanFrom (b : Bytecode) (pos : Nat) :
    ((b.scanFrom pos).tokens.map Prod.fst).Pairwise (· < ·) ∧
      ∀ p ∈ (b.scanFrom pos).tokens, pos ≤ p.1 ∧ p.1 < b.size := by
  refine scanFrom_induction
    (motive := fun pos s => (s.tokens.map Prod.fst).Pairwise (· < ·) ∧
      ∀ p ∈ s.tokens, pos ≤ p.1 ∧ p.1 < b.size) ?_ ?_ ?_ pos
  · intro pos e _
    simp
  · intro pos hb
    have hs := hb.size_le
    simpa using hs
  · intro pos t bs s ht hb ⟨hp, hm⟩
    have hs := hb.size_le
    have hne := List.length_pos_iff.mpr ht.ne_nil
    constructor
    · rw [List.map_cons, List.pairwise_cons]
      refine ⟨fun q hq => ?_, hp⟩
      obtain ⟨p, hps, rfl⟩ := List.mem_map.mp hq
      have := hm p hps
      omega
    · intro p hps
      rcases List.mem_cons.mp hps with rfl | hps
      · exact ⟨le_rfl, by dsimp only; omega⟩
      · have := hm p hps
        omega

def Scan.items (s : Scan) : List (Except Error (Nat × Token)) :=
  s.tokens.map .ok ++ (s.fault.map .error).toList

def Stops : Except Error (Nat × Token) → Prop
  | .error _ => True
  | .ok (_, t) => t = .simple .endOfFile

theorem exists_items_eq (b : Bytecode) (pos : Nat) :
    ∃ init last, (b.scanFrom pos).items = init ++ [last] ∧ Stops last ∧
      (∀ item ∈ init, ¬ Stops item) ∧ init.length ≤ b.size - pos := by
  refine scanFrom_induction
    (motive := fun pos s => ∃ init last, s.items = init ++ [last] ∧ Stops last ∧
      (∀ item ∈ init, ¬ Stops item) ∧ init.length ≤ b.size - pos) ?_ ?_ ?_ pos
  · intro pos e _
    exact ⟨[], .error e, rfl, trivial, by simp, Nat.zero_le _⟩
  · intro pos _
    exact ⟨[], .ok (pos, .simple .endOfFile), rfl, rfl, by simp, Nat.zero_le _⟩
  · intro pos t bs s ht hb ⟨init, last, hi, hl, hn, hlen⟩
    have hs := hb.size_le
    have hne := List.length_pos_iff.mpr ht.ne_nil
    refine ⟨.ok (pos, t) :: init, last, ?_, hl, ?_, ?_⟩
    · rw [List.cons_append, ← hi]
      rfl
    · intro item hm
      rcases List.mem_cons.mp hm with rfl | hm
      · exact ht.ne_endOfFile
      · exact hn item hm
    · rw [List.length_cons]
      omega

end Bytecode

end QbScript
