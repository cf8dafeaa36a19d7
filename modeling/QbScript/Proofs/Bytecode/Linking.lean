import QbScript.Proofs.Bytecode.Address

/-!
# Linking a stream of tokens

A token without its addresses says how many bytes it has and where its addresses are. Linking
addresses of a stream of tokens gives a stream of tokens that differ in these addresses only.
-/

set_option autoImplicit false

namespace QbScript

open LittleEndian Bytecode

namespace Token

def blank : Token → Token
  | .jump _ => .jump 0
  | .shortBranch tag _ => .shortBranch tag 0
  | .random tag weights jumps => .random tag weights (List.replicate jumps.length 0)
  | t => t

def addresses (pos : Nat) : Token → List Address
  | .jump _ => [.long (pos + 1)]
  | .shortBranch _ _ => [.short (pos + 1)]
  | .random _ weights jumps => (List.range jumps.length).map fun i => .long (slot pos weights.length i)
  | _ => []

@[simp] theorem blank_blank (t : Token) : t.blank.blank = t.blank := by
  cases t <;> simp [blank]

theorem addresses_blank (pos : Nat) (t : Token) : t.blank.addresses pos = t.addresses pos := by
  cases t <;> simp [blank, addresses]

theorem length_wire_random (tag : Tag) (weights : List UInt16) (jumps : List Int32) :
    (Token.random tag weights jumps).wire.length = 5 + 2 * weights.length + 4 * jumps.length := by
  simp only [wire, payload, List.length_cons, List.length_append, length_word32,
    length_flatMap length_word16, length_flatMap length_int32]
  omega

theorem length_wire_blank (t : Token) : t.blank.wire.length = t.wire.length := by
  cases t with
  | random tag weights jumps => simp [blank, length_wire_random]
  | _ => simp [blank, wire, payload]

theorem stands_blank_iff (t : Token) : t.blank.Stands ↔ t.Stands := by
  cases t <;> simp [blank, Stands]

theorem wire_ne_nil (t : Token) : t.wire ≠ [] := List.cons_ne_nil _ _

theorem pairwise_addresses (pos : Nat) (t : Token) :
    (t.addresses pos).Pairwise (fun f g => f.stop ≤ g.pos) ∧
      ∀ f ∈ t.addresses pos, pos ≤ f.pos ∧ f.stop ≤ pos + t.wire.length := by
  cases t with
  | jump d => simp [addresses, wire, payload, Address.stop, Address.pos, Address.size]
  | shortBranch tag d => simp [addresses, wire, payload, Address.stop, Address.pos, Address.size]
  | random tag weights jumps =>
    constructor
    · rw [addresses, List.pairwise_map]
      refine List.pairwise_lt_range.imp ?_
      intro i j hij
      simp only [Address.stop, Address.pos, Address.size, slot]
      omega
    · intro f hf
      obtain ⟨i, hi, rfl⟩ := List.mem_map.mp hf
      have hi := List.mem_range.mp hi
      rw [length_wire_random]
      simp only [Address.stop, Address.pos, Address.size, slot]
      omega
  | _ => simp [addresses]

/-- What stands around an address of a token at `pos`. Other bytes in its place make a token that
differs in its addresses only. -/
theorem exists_around_address {pos : Nat} {t : Token} {f : Address} (hf : f ∈ t.addresses pos) :
    ∃ xs old ys, t.wire = xs ++ old ++ ys ∧ pos + xs.length = f.pos ∧ old.length = f.size ∧
      ∀ bs : List UInt8, bs.length = f.size →
        ∃ u : Token, u.wire = xs ++ bs ++ ys ∧ u.blank = t.blank := by
  cases t with
  | jump d =>
    obtain rfl := List.mem_singleton.mp hf
    refine ⟨[Tag.jump.byte], int32 d, [], by simp [wire, leadTag, tag, payload], rfl,
      length_int32 d, fun bs hl => ⟨.jump (toInt32 bs), ?_, rfl⟩⟩
    simp [wire, leadTag, tag, payload, int32_toInt32 hl]
  | shortBranch tag d =>
    obtain rfl := List.mem_singleton.mp hf
    refine ⟨[tag.byte], int16 d, [], by simp [wire, leadTag, Token.tag, payload], rfl,
      length_int16 d, fun bs hl => ⟨.shortBranch tag (toInt16 bs), ?_, rfl⟩⟩
    simp [wire, leadTag, Token.tag, payload, int16_toInt16 hl]
  | random tag weights jumps =>
    obtain ⟨i, hi, rfl⟩ := List.mem_map.mp hf
    have hi := List.mem_range.mp hi
    have hj : jumps.flatMap int32 = (jumps.take i).flatMap int32 ++ int32 jumps[i]
        ++ (jumps.drop (i + 1)).flatMap int32 := by
      rw [List.append_assoc, ← List.flatMap_cons, ← List.flatMap_append, List.getElem_cons_drop,
        List.take_append_drop]
    refine ⟨tag.byte :: (word32 (UInt32.ofNat weights.length) ++ weights.flatMap word16
      ++ (jumps.take i).flatMap int32), int32 jumps[i], (jumps.drop (i + 1)).flatMap int32, ?_, ?_,
      length_int32 _, fun bs hl => ⟨.random tag weights (jumps.set i (toInt32 bs)), ?_, ?_⟩⟩
    · simp [wire, payload, hj, leadTag, Token.tag]
    · simp only [List.length_cons, List.length_append, length_word32, length_flatMap length_word16,
        length_flatMap length_int32, List.length_take, Address.pos, slot]
      omega
    · simp [wire, payload, List.set_eq_take_append_cons_drop, hi, leadTag, Token.tag,
        int32_toInt32 hl]
    · simp [blank]
  | _ => simp [addresses] at hf

end Token

namespace Bytecode

def addressesOf (pos : Nat) : List Token → List Address
  | [] => []
  | t :: ts => t.addresses pos ++ addressesOf (pos + t.wire.length) ts

theorem addressesOf_append (pos : Nat) (ts us : List Token) :
    addressesOf pos (ts ++ us) = addressesOf pos ts ++ addressesOf (pos + (wires ts).length) us := by
  induction ts generalizing pos with
  | nil => simp [addressesOf]
  | cons t ts ih => simp [addressesOf, ih, Nat.add_assoc]

theorem length_wires_eq_of_blank {ts us : List Token}
    (h : ts.map Token.blank = us.map Token.blank) : (wires ts).length = (wires us).length := by
  induction ts generalizing us with
  | nil =>
    obtain rfl : us = [] := by simpa [eq_comm] using h
    rfl
  | cons t ts ih =>
    cases us with
    | nil => simp at h
    | cons u us =>
      simp only [List.map_cons, List.cons.injEq] at h
      rw [wires_cons, wires_cons, List.length_append, List.length_append, ih h.2,
        ← t.length_wire_blank, h.1, u.length_wire_blank]

theorem addressesOf_eq_of_blank {ts us : List Token}
    (h : ts.map Token.blank = us.map Token.blank) (pos : Nat) :
    addressesOf pos ts = addressesOf pos us := by
  induction ts generalizing us pos with
  | nil =>
    obtain rfl : us = [] := by simpa [eq_comm] using h
    rfl
  | cons t ts ih =>
    cases us with
    | nil => simp at h
    | cons u us =>
      simp only [List.map_cons, List.cons.injEq] at h
      rw [addressesOf, addressesOf, ih h.2, ← t.addresses_blank, h.1, u.addresses_blank,
        ← t.length_wire_blank, h.1, u.length_wire_blank]

theorem pairwise_addressesOf (pos : Nat) (ts : List Token) :
    (addressesOf pos ts).Pairwise (fun f g => f.stop ≤ g.pos) ∧
      ∀ f ∈ addressesOf pos ts, pos ≤ f.pos ∧ f.stop ≤ pos + (wires ts).length := by
  induction ts generalizing pos with
  | nil => simp [addressesOf]
  | cons t ts ih =>
    obtain ⟨hp, hm⟩ := t.pairwise_addresses pos
    obtain ⟨hps, hms⟩ := ih (pos + t.wire.length)
    rw [addressesOf, wires_cons, List.length_append]
    constructor
    · refine List.pairwise_append.mpr ⟨hp, hps, fun f hf g hg => ?_⟩
      have := hm f hf
      have := hms g hg
      omega
    · intro f hf
      rcases List.mem_append.mp hf with hf | hf
      · have := hm f hf
        omega
      · have := hms f hf
        omega

def Address.Apart (f g : Address) : Prop := f.stop ≤ g.pos ∨ g.stop ≤ f.pos

instance : Std.Symm Address.Apart := ⟨fun _ _ h => h.symm⟩

theorem apart_of_mem_addressesOf {pos : Nat} {ts : List Token} {f g : Address}
    (hf : f ∈ addressesOf pos ts) (hg : g ∈ addressesOf pos ts) (hne : f ≠ g) : f.Apart g := by
  have h : (addressesOf pos ts).Pairwise Address.Apart :=
    (pairwise_addressesOf pos ts).1.imp fun hfg => Or.inl hfg
  exact h.forall hf hg hne

theorem nodup_addressesOf (pos : Nat) (ts : List Token) : (addressesOf pos ts).Nodup := by
  refine (pairwise_addressesOf pos ts).1.imp fun {f g} hfg => ?_
  rintro rfl
  exact Nat.not_lt_of_le hfg f.pos_lt_stop

/-- Other bytes in the place of an address of a stream make a stream with other addresses. -/
theorem exists_around_address {pos : Nat} {ts : List Token} {f : Address}
    (hf : f ∈ addressesOf pos ts) :
    ∃ xs old ys, wires ts = xs ++ old ++ ys ∧ pos + xs.length = f.pos ∧ old.length = f.size ∧
      ∀ bs : List UInt8, bs.length = f.size →
        ∃ us, wires us = xs ++ bs ++ ys ∧ us.map Token.blank = ts.map Token.blank := by
  induction ts generalizing pos with
  | nil => simp [addressesOf] at hf
  | cons t ts ih =>
    rcases List.mem_append.mp hf with hf | hf
    · obtain ⟨xs, old, ys, hw, hp, hl, hall⟩ := Token.exists_around_address hf
      refine ⟨xs, old, ys ++ wires ts, by simp [hw], hp, hl, fun bs hb => ?_⟩
      obtain ⟨u, hu, hub⟩ := hall bs hb
      exact ⟨u :: ts, by simp [hu], by simp [hub]⟩
    · obtain ⟨xs, old, ys, hw, hp, hl, hall⟩ := ih hf
      refine ⟨t.wire ++ xs, old, ys, by simp [hw], by simp; omega, hl, fun bs hb => ?_⟩
      obtain ⟨us, hu, hub⟩ := hall bs hb
      exact ⟨t :: us, by simp [hu], by simp [hub]⟩

section
variable {b c : Bytecode} {f g : Address} {ts : List Token}

theorem HoldsAt.append_right {pos : Nat} {xs : List UInt8} (h : b.HoldsAt pos xs)
    (bs : List UInt8) : Bytecode.HoldsAt (b ++ bs.toArray) pos xs := by
  have hs := h.size_le
  refine ⟨by rw [Array.size_append]; omega, fun i hi => ?_⟩
  rw [Array.getElem?_append_left (by omega), h.getElem? i hi]

/-- An address goes on to lead to the same place while its bytes stay and the stream only grows. -/
theorem read_of_holdsAt {target : Nat} (hs : b.size ≤ c.size)
    (hf : ∀ bs : List UInt8, bs.length = f.size → b.HoldsAt f.pos bs → c.HoldsAt f.pos bs)
    (h : f.read b = .ok target) : f.read c = .ok target := by
  have ht : ∀ pos base d, b.target pos base d = .ok target → c.target pos base d = .ok target := by
    intro pos base d hd
    unfold Bytecode.target at hd ⊢
    by_cases hr : 0 ≤ (base : Int) + d ∧ (base : Int) + d ≤ b.size
    · rw [if_pos hr] at hd
      rwa [if_pos (by omega)]
    · rw [if_neg hr] at hd
      cases hd
  cases f with
  | long pos =>
    obtain ⟨d, hd, hd'⟩ := bind_eq_ok_iff.mp (show b.longAddress pos = .ok target from h)
    obtain ⟨bs, hbs, rfl⟩ := map_eq_ok_iff.mp hd
    have hl := length_of_field_eq_ok hbs
    have hc := (hf bs hl (holdsAt_of_field hbs)).field hl
    simp only [Address.pos] at hc
    simp [Address.read, longAddress, int32At, hc, ht _ _ _ hd']
  | short pos =>
    obtain ⟨d, hd, hd'⟩ := bind_eq_ok_iff.mp (show b.shortAddress pos = .ok target from h)
    obtain ⟨bs, hbs, rfl⟩ := map_eq_ok_iff.mp hd
    have hl := length_of_field_eq_ok hbs
    have hc := (hf bs hl (holdsAt_of_field hbs)).field hl
    simp only [Address.pos] at hc
    simp [Address.read, shortAddress, int16At, hc, ht _ _ _ hd']

theorem read_append {target : Nat} (h : f.read b = .ok target) (bs : List UInt8) :
    f.read (b ++ bs.toArray) = .ok target :=
  read_of_holdsAt (by simp) (fun _ _ h => h.append_right bs) h

theorem size_of_link {target : Nat} (h : f.link b target = .ok c) : c.size = b.size := by
  obtain ⟨-, -, rfl⟩ := Address.link_eq_ok_iff.mp h
  exact size_go _ _ _

/-- The linked address leads to the target, every other address to where it led before. -/
theorem read_of_link {target : Nat} (h : f.link b target = .ok c) (ht : target ≤ b.size) :
    f.read c = .ok target ∧
      ∀ g : Address, g.Apart f → ∀ t, g.read b = .ok t → g.read c = .ok t := by
  have hs := size_of_link h
  obtain ⟨hr, hf, rfl⟩ := Address.link_eq_ok_iff.mp h
  constructor
  · refine Address.read_eq_ok hr (by omega) (holdsAt_go ?_)
    rwa [Address.length_bytes]
  · intro g hg t hgt
    refine read_of_holdsAt (by omega) (fun bs hl hh => hh.go_outside ?_) hgt
    rw [hl, Address.length_bytes]
    exact hg

theorem exists_wires_of_link {target : Nat} (hb : b.toList = wires ts) (hf : f ∈ addressesOf 0 ts)
    (h : f.link b target = .ok c) :
    ∃ us, us.map Token.blank = ts.map Token.blank ∧ c.toList = wires us := by
  obtain ⟨-, -, rfl⟩ := Address.link_eq_ok_iff.mp h
  obtain ⟨xs, old, ys, hw, hp, hl, hall⟩ := exists_around_address hf
  obtain ⟨us, hu, hub⟩ := hall (f.bytes target) (Address.length_bytes target f)
  refine ⟨us, hub, ?_⟩
  rw [hu, ← hp, Nat.zero_add]
  exact toList_go (hb.trans hw) (by rw [hl, Address.length_bytes])

end

structure Link where
  field : Address
  target : Nat
  deriving DecidableEq

def linkAll (b : Bytecode) (links : List Link) : Except LinkError Bytecode :=
  links.foldlM (fun b l => l.field.link b l.target) b

/-- Linking addresses of a stream of tokens, each of them once. -/
theorem linkAll_spec {b c : Bytecode} {ts : List Token} {links : List Link}
    (hb : b.toList = wires ts) (hn : (links.map Link.field).Nodup)
    (hm : ∀ l ∈ links, l.field ∈ addressesOf 0 ts ∧ l.target ≤ b.size)
    (h : linkAll b links = .ok c) :
    c.size = b.size ∧
      (∃ us, us.map Token.blank = ts.map Token.blank ∧ c.toList = wires us) ∧
      (∀ l ∈ links, l.field.read c = .ok l.target) ∧
      ∀ f ∈ addressesOf 0 ts, f ∉ links.map Link.field →
        ∀ t, f.read b = .ok t → f.read c = .ok t := by
  induction links generalizing b ts with
  | nil =>
    obtain rfl : b = c := by simpa [linkAll] using h
    exact ⟨rfl, ⟨ts, rfl, hb⟩, by simp, fun f _ _ t ht => ht⟩
  | cons l links ih =>
    rw [linkAll, List.foldlM_cons] at h
    obtain ⟨b', hl, hlinks⟩ := bind_eq_ok_iff.mp h
    obtain ⟨hl0, hln⟩ := List.nodup_cons.mp hn
    obtain ⟨hlm, hlt⟩ := hm l List.mem_cons_self
    obtain ⟨us, hub, hus⟩ := exists_wires_of_link hb hlm hl
    obtain ⟨hread, hother⟩ := read_of_link hl hlt
    have hs := size_of_link hl
    have ha := addressesOf_eq_of_blank hub 0
    obtain ⟨hcs, ⟨vs, hvb, hvs⟩, hcl, hcf⟩ := ih hus hln (fun k hk => by
      rw [ha, hs]
      exact hm k (List.mem_cons_of_mem l hk)) hlinks
    rw [ha] at hcf
    refine ⟨by omega, ⟨vs, hvb.trans hub, hvs⟩, ?_, ?_⟩
    · intro k hk
      rcases List.mem_cons.mp hk with rfl | hk
      · exact hcf _ hlm hl0 _ hread
      · exact hcl k hk
    · intro f hf hfl t hft
      simp only [List.map_cons, List.mem_cons, not_or] at hfl
      exact hcf f hf hfl.2 t (hother f (apart_of_mem_addressesOf hf hlm hfl.1) t hft)

end Bytecode

end QbScript
