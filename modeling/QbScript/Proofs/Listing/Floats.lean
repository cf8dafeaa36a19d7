import QbScript.Proofs.Listing.Legible

/-!
# Listed floats

A finite float is listed as digits around a point, which are read as a float, if not always as the
same. What is listed for one that is not finite is read as a name. Such a name says nothing wrong by
itself; but no script has a list with it that begins a pair or a vector.
-/

set_option autoImplicit false

namespace QbScript

open Phrase

theorem Binary32.IsFinite.exists_readsNumber {x : Binary32} (hx : x.IsFinite) :
    ∃ y, ReadsNumber x.text (.float y) :=
  Binary32.exists_frontReads_text hx

/-- The text of a finite float is read as a float, if not always as this one. -/
theorem Binary32.IsFinite.exists_legible {x : Binary32} (hx : x.IsFinite) :
    ∃ y, Legible x.text.toList (.float y) := by
  obtain ⟨y, hy⟩ := exists_frontReads_text hx
  refine ⟨y, legible_of_frontReads (fun rest hr => hy rest hr.isBoundary) id ?_⟩
  exact getLast?_ne_newline fun c hc => (isPlain_of_mem_text hc).ne_newline

namespace Phrase

/-- No script begins with the tokens. -/
def IsStuck (us : List Token) : Prop := ∀ vs ts, ¬ Composes (us ++ vs) ts

/-- Groups of tokens make up no script if one of them is stuck where it stands. -/
theorem not_composes_flatten {uss : List (List Token)}
    (h : ∀ us ∈ uss, (∃ ts, Composes us ts) ∨ IsStuck us) (hs : ∃ us ∈ uss, IsStuck us)
    (ts : List Token) : ¬ Composes uss.flatten ts := by
  induction uss generalizing ts with
  | nil =>
    obtain ⟨us, hu, -⟩ := hs
    cases hu
  | cons us uss ih =>
    intro hc
    rw [List.flatten_cons] at hc
    rcases h us List.mem_cons_self with ⟨qs, hq⟩ | hstuck
    · obtain ⟨ts', hc⟩ := hq.of_append hc
      obtain ⟨vs, hv, hstuck⟩ := hs
      rcases List.mem_cons.mp hv with rfl | hv
      · exact hstuck [] qs (by rwa [List.append_nil])
      · exact ih (fun us hu => h us (List.mem_cons_of_mem _ hu)) ⟨vs, hv, hstuck⟩ ts' hc
    · exact hstuck _ _ hc

def StartsOther (us : List Token) : Prop := ∃ u us', us = u :: us' ∧ real? u = none

theorem StartsOther.real?_ne {u : Token} {us vs xs : List Token} {x : Binary32}
    (h : StartsOther us) (he : us ++ vs = u :: xs) : real? u ≠ some x := by
  obtain ⟨w, us', rfl, hw⟩ := h
  rw [← (List.cons.inj he).1, hw]
  nofun

section

variable {us vs ws : List Token}

theorem isStuck_pair (hu : (∃ u, us = [u]) ∨ StartsOther us)
    (h : StartsOther us ∨ StartsOther vs) :
    IsStuck (.simple .pair :: .simple .openParenth :: itemTokens [us, vs]) := by
  intro rest ts hc
  obtain ⟨a, b, x, y, xs, ts', he, hx, hy, -⟩ := hc.of_pair
  have he : us ++ .simple .comma :: (vs ++ .simple .closeParenth :: rest) =
      a :: .simple .comma :: b :: .simple .closeParenth :: xs := by simpa [itemTokens] using he
  by_cases hus : StartsOther us
  · exact hus.real?_ne he hx
  · obtain ⟨u, rfl⟩ := hu.resolve_right hus
    exact (h.resolve_left hus).real?_ne (List.cons.inj (List.cons.inj he).2).2 hy

theorem isStuck_vector (hu : (∃ u, us = [u]) ∨ StartsOther us)
    (hv : (∃ v, vs = [v]) ∨ StartsOther vs)
    (h : StartsOther us ∨ StartsOther vs ∨ StartsOther ws) :
    IsStuck (.simple .vector :: .simple .openParenth :: itemTokens [us, vs, ws]) := by
  intro rest ts hc
  obtain ⟨a, b, c, x, y, z, xs, ts', he, hx, hy, hz, -⟩ := hc.of_vector
  have he : us ++ .simple .comma :: (vs ++ .simple .comma :: (ws ++
      .simple .closeParenth :: rest)) = a :: .simple .comma :: b :: .simple .comma :: c ::
        .simple .closeParenth :: xs := by simpa [itemTokens] using he
  by_cases hus : StartsOther us
  · exact hus.real?_ne he hx
  · obtain ⟨u, rfl⟩ := hu.resolve_right hus
    have he := (List.cons.inj (List.cons.inj he).2).2
    by_cases hvs : StartsOther vs
    · exact hvs.real?_ne he hy
    · obtain ⟨v, rfl⟩ := hv.resolve_right hvs
      have hws := (h.resolve_left hus).resolve_left hvs
      exact hws.real?_ne (List.cons.inj (List.cons.inj he).2).2 hz

end

end Phrase

namespace Binary32

variable {x : Binary32}

/-- The text of a float that is not finite is read as a name, which may stand after a minus. -/
theorem exists_spells_of_not_isFinite (hx : ¬ x.IsFinite) :
    ∃ us, StartsOther us ∧ (∃ ts, Composes us ts) ∧
      ∀ {gap rest : List Char} {op : Bool} {ts : List Token}, IsGap gap → IsBoundary rest →
        (∀ op, Spells op rest ts) → Spells op (gap ++ (x.text.toList ++ rest)) (us ++ ts) := by
  have hword : ∀ {s : String} {gap rest : List Char} {op : Bool} {ts : List Token},
      Literal.isWord s → Literal.wordToken s = .name s → IsGap gap → IsBoundary rest →
      (∀ op, Spells op rest ts) → Spells op (gap ++ (s.toList ++ rest)) (.name s :: ts) := by
    intro s gap rest op ts hs hn hg hr ht
    refine .step hg ?_ (ht _)
    rw [← hn]
    exact Literal.frontReads_word hs hr
  have hname : ∀ s, Composes [.name s] [.name s] := fun s => .other id .nil
  rcases text_of_not_isFinite hx with ht | ht | ht
  · rw [ht]
    exact ⟨[.name "NaN"], ⟨_, _, rfl, rfl⟩, ⟨_, hname _⟩, hword rfl (by decide +kernel)⟩
  · rw [ht]
    exact ⟨[.name "inf"], ⟨_, _, rfl, rfl⟩, ⟨_, hname _⟩, hword rfl (by decide +kernel)⟩
  · rw [ht]
    refine ⟨[.simple .minus, .name "inf"], ⟨_, _, rfl, rfl⟩, ⟨_, .other ?_ (hname _)⟩, ?_⟩
    · rintro (h | h | h) <;> cases h
    · intro gap rest op ts hg hr hs
      have hinf := @hword "inf" [] rest false ts rfl (by decide +kernel) isGap_nil hr hs
      exact @Spells.step _ _ ['-'] _ _ _ hg (frontReads_minus rfl) hinf

theorem exists_readable_of_not_isFinite (hx : ¬ x.IsFinite) :
    ∃ us ts, Readable x.text.toList us ∧ Composes us ts := by
  obtain ⟨us, -, ⟨ts, hc⟩, hs⟩ := exists_spells_of_not_isFinite hx
  refine ⟨us, ts, ⟨?_, fun hg _ hr => hs hg hr.isBoundary⟩, hc⟩
  rcases text_of_not_isFinite hx with ht | ht | ht
  · exact ⟨['N', 'a'], 'N', by rw [ht]; rfl, by decide⟩
  · exact ⟨['i', 'n'], 'f', by rw [ht]; rfl, by decide⟩
  · exact ⟨['-', 'i', 'n'], 'f', by rw [ht]; rfl, by decide⟩

/-- As an item of a list a float is read as one token, or as no number at all. -/
theorem exists_readsItem (x : Binary32) :
    ∃ us, ReadsItem x.text us ∧ ((∃ u, us = [u]) ∨ StartsOther us) ∧
      (¬ x.IsFinite → StartsOther us) := by
  by_cases hx : x.IsFinite
  · obtain ⟨y, hy⟩ := IsFinite.exists_readsNumber hx
    exact ⟨_, hy.readsItem, Or.inl ⟨_, rfl⟩, absurd hx⟩
  · obtain ⟨us, hu, -, hs⟩ := exists_spells_of_not_isFinite hx
    exact ⟨us, hs, Or.inr hu, fun _ => hu⟩

end Binary32

end QbScript
