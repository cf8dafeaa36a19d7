import QbScript.Proofs.Script.Construct
import QbScript.Proofs.Script.RandomBlocks

/-!
# Constructs of a compiled stream

The constructs of a stream are those of the run that wrote it: neither the addresses nor the table
of names have a part in them. The tokens of a construct stand one after the other.
-/

set_option autoImplicit false

namespace QbScript

open Bytecode Assembly

variable {α : Type} {kind : Construct α} {n m : Bracketing α} {pos stop : Nat} {t : Token}
  {ts us : List Token}

namespace Construct

/-- A kind of construct that a stream can have: no address says whether a token belongs to one, and
no token from the table on does. -/
structure IsStreamed (kind : Construct α) : Prop where
  blank : ∀ t, kind.role? t.blank = kind.role? t
  entry : ∀ c name, kind.role? (.checksumName c name) = none
  finish : kind.role? (.simple .endOfFile) = none

theorem foldlM_add_congr {ps qs : List (Nat × Token)}
    (h : ps.map (fun p => (p.1, kind.role? p.2)) = qs.map (fun p => (p.1, kind.role? p.2)))
    (n : Bracketing α) :
    ps.foldlM (Bracketing.add kind) n = qs.foldlM (Bracketing.add kind) n := by
  induction ps generalizing qs n with
  | nil =>
    obtain rfl := List.map_eq_nil_iff.mp h.symm
    rfl
  | cons p ps ih =>
    obtain ⟨q, qs, rfl, hpq, hrest⟩ := List.map_eq_cons_iff.mp h.symm
    obtain ⟨hpos, hrole⟩ := Prod.mk.inj hpq
    have hadd : n.add kind p = n.add kind q := by simp only [Bracketing.add, hpos, hrole]
    rw [List.foldlM_cons, List.foldlM_cons, hadd]
    exact bind_congr fun n' => ih hrest.symm n'

theorem IsStreamed.map_placed (hk : kind.IsStreamed) (h : us.map Token.blank = ts.map Token.blank)
    (pos : Nat) : (placed pos us).map (fun p => (p.1, kind.role? p.2)) =
      (placed pos ts).map (fun p => (p.1, kind.role? p.2)) := by
  induction ts generalizing us pos with
  | nil =>
    obtain rfl := List.map_eq_nil_iff.mp h
    rfl
  | cons t ts ih =>
    obtain ⟨u, us, rfl, hu, hus⟩ := List.map_eq_cons_iff.mp h
    have hl : u.wire.length = t.wire.length := by
      rw [← u.length_wire_blank, hu, t.length_wire_blank]
    have hr : kind.role? u = kind.role? t := by rw [← hk.blank, hu, hk.blank]
    rw [placed, placed, List.map_cons, List.map_cons, hl, hr, ih hus]

end Construct

theorem Assembly.Sound.placed_append {a : Assembly} (hs : a.Sound ts) (us : List Token) :
    placed 0 (ts ++ us) = placed 0 ts ++ placed a.out.size us := by
  rw [QbScript.Bytecode.placed_append, Nat.zero_add, ← hs.size]

theorem Construct.bracketing?_placed_append {a : Assembly} (hs : a.Sound ts)
    (h : kind.bracketing? (placed 0 ts) = some n)
    (hm : (placed a.out.size us).foldlM (Bracketing.add kind) n = some m) :
    kind.bracketing? (placed 0 (ts ++ us)) = some m := by
  rw [hs.placed_append, bracketing?_append, h]
  exact hm

/-- Tokens that belong to no construct of the kind leave the bracketing as it is. -/
theorem Construct.foldlM_placed_of_part (h : kind.part us = []) :
    (placed pos us).foldlM (Bracketing.add kind) n = some n :=
  foldlM_add_of_none (fun p hp => by
    simpa using List.filter_eq_nil_iff.mp h p.2 (mem_of_mem_placed hp)) n

theorem Construct.foldlM_placed_singleton (h : n.add kind (pos, t) = some m) :
    (placed pos [t]).foldlM (Bracketing.add kind) n = some m := by
  simp [placed, h]

/-- What every step keeps true of the assembly and of the constructs of the stream so far is true at
the end of a run. -/
theorem Assembly.Run.exists_bracketing?_placed {options : CompileOptions} {lines : LineMap}
    {ps : List Phrase} {a : Assembly} {P : Assembly → List Token → Bracketing α → Prop}
    (h : Run options lines ps ts a) (hp : ∀ p ∈ ps, p.token.IsPhrase)
    (h0 : P Assembly.start [] Bracketing.start)
    (hstep : ∀ {line a t ts us links a' n}, a.Sound ts → Step options line a t us links a' →
      t.IsPhrase → P a ts n →
      ∃ m, (placed a.out.size us).foldlM (Bracketing.add kind) n = some m ∧ P a' (ts ++ us) m) :
    ∃ n, kind.bracketing? (placed 0 ts) = some n ∧ P a ts n := by
  induction h with
  | start => exact ⟨_, rfl, h0⟩
  | @step ps ts us a a' p links hr _ hs ih =>
    have hps : ∀ q ∈ ps, q.token.IsPhrase := fun q hq => hp q (List.mem_append_left _ hq)
    have ht : p.token.IsPhrase := hp p (List.mem_append_right _ List.mem_cons_self)
    obtain ⟨n, hb, hn⟩ := ih hps
    obtain ⟨m, hm, ha⟩ := hstep (hr.sound hps) hs ht hn
    exact ⟨m, Construct.bracketing?_placed_append (hr.sound hps) hb hm, ha⟩

/-- The constructs of a compiled stream are those of the tokens that were written. -/
theorem Compiled.bracketing?_scan {options : CompileOptions} {source : String} {b : Bytecode}
    {ls : List Lexeme} {ps : List Phrase} {a : Assembly}
    (h : Compiled options source b ls ps ts us a) (hs : b.size < 0x80000000) (hn : NoZeroNames ls)
    (hk : kind.IsStreamed) : kind.bracketing? b.scan.tokens = kind.bracketing? (placed 0 ts) := by
  have hrest : ∀ p ∈ placed a.out.size (a.names.entries ++ [.simple .endOfFile]),
      kind.role? p.2 = none := by
    intro p hp
    rcases List.mem_append.mp (mem_of_mem_placed hp) with hm | hm
    · obtain ⟨entry, -, he⟩ := List.mem_map.mp hm
      rw [← he]
      exact hk.entry _ _
    · rw [List.mem_singleton.mp hm]
      exact hk.finish
  rw [h.scan hs (h.stands_entries hn)]
  dsimp only
  rw [List.append_assoc, Bytecode.placed_append, Nat.zero_add, ← h.size_out,
    Construct.bracketing?_append]
  have hbody : kind.bracketing? (placed 0 us) = kind.bracketing? (placed 0 ts) :=
    Construct.foldlM_add_congr (hk.map_placed h.blank 0) _
  rw [hbody]
  cases kind.bracketing? (placed 0 ts) with
  | none => rfl
  | some n => exact Construct.foldlM_add_of_none hrest n

def Enclosure.placesTo (k : Enclosure α) (stop : Nat) : List Nat := k.start :: k.dividers ++ [stop]

structure Bracketing.Ascends (n : Bracketing α) (stop : Nat) : Prop where
  opened : ∀ k ∈ n.opened, (k.placesTo stop).Pairwise (· < ·)
  closed : ∀ k ∈ n.closed, (k.placesTo k.finish).Pairwise (· < ·)

theorem Enclosure.placesTo_mono {k : Enclosure α} (h : (k.placesTo pos).Pairwise (· < ·))
    (hp : pos ≤ stop) : (k.placesTo stop).Pairwise (· < ·) := by
  rw [placesTo, List.pairwise_append] at h ⊢
  refine ⟨h.1, List.pairwise_singleton .., fun i hi j hj => ?_⟩
  have := h.2.2 i hi pos List.mem_cons_self
  rw [List.mem_singleton.mp hj]
  omega

namespace Bracketing

theorem Ascends.add (h : n.Ascends pos) (hm : n.add kind (pos, t) = some m) (hp : pos < stop) :
    m.Ascends stop := by
  have hopened : ∀ k ∈ n.opened, (k.placesTo stop).Pairwise (· < ·) :=
    fun k hk => Enclosure.placesTo_mono (h.opened k hk) (Nat.le_of_lt hp)
  cases adds_of_add hm with
  | stays => exact ⟨hopened, h.closed⟩
  | opens =>
    refine ⟨fun k hk => ?_, h.closed⟩
    rcases List.mem_cons.mp hk with rfl | hk
    · simpa [Enclosure.placesTo] using hp
    · exact hopened k hk
  | @divides k outer _ ho =>
    rw [ho] at hopened
    refine ⟨fun k' hk => ?_, h.closed⟩
    rcases List.mem_cons.mp hk with rfl | hk
    · have hlast := h.opened k (ho ▸ List.mem_cons_self)
      have hall : (k.placesTo pos ++ [stop]).Pairwise (· < ·) := by
        refine List.pairwise_append.mpr ⟨hlast, List.pairwise_singleton .., fun i hi j hj => ?_⟩
        rw [List.mem_singleton.mp hj]
        rcases List.mem_append.mp hi with hi | hi
        · exact (List.pairwise_append.mp hlast).2.2 i hi pos List.mem_cons_self |>.trans hp
        · rwa [List.mem_singleton.mp hi]
      simpa [Enclosure.placesTo] using hall
    · exact hopened k' (List.mem_cons_of_mem _ hk)
  | @closes k outer _ ho =>
    rw [ho] at hopened
    refine ⟨fun k' hk => hopened k' (List.mem_cons_of_mem _ hk), fun c hc => ?_⟩
    rcases List.mem_append.mp hc with hc | hc
    · exact h.closed c hc
    · obtain rfl := List.mem_singleton.mp hc
      exact h.opened k (ho ▸ List.mem_cons_self)

theorem Ascends.foldlM (h : n.Ascends pos)
    (hm : (placed pos ts).foldlM (Bracketing.add kind) n = some m) :
    m.Ascends (pos + (wires ts).length) := by
  induction ts generalizing n pos with
  | nil =>
    obtain rfl := Option.some.inj hm
    exact h
  | cons t ts ih =>
    rw [placed, List.foldlM_cons] at hm
    obtain ⟨n', hn', hm⟩ := Option.bind_eq_some_iff.mp hm
    have hlen : 0 < t.wire.length := List.length_pos_iff.mpr t.wire_ne_nil
    have := ih (h.add hn' (Nat.lt_add_of_pos_right hlen)) hm
    rwa [wires_cons, List.length_append, ← Nat.add_assoc]

theorem ascends_of_bracketing? (h : kind.bracketing? (placed 0 ts) = some n) :
    n.Ascends (wires ts).length := by
  have h0 : (start : Bracketing α).Ascends 0 :=
    ⟨fun _ hk => (nomatch hk), fun _ hk => (nomatch hk)⟩
  have hend := h0.foldlM h
  rwa [Nat.zero_add] at hend

end Bracketing

end QbScript
