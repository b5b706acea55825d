import KuberCoin.Bech32Substitutions

/-!
Words with a few characters side by side changed. Six symbols fill the register, so what they are
changed into shows in it, and no later symbol takes it back.
-/
namespace KuberCoin.Bech32Bursts

open FeedbackRegisters Bech32Codes Bech32Registers Bech32Programs Bech32Strings Bech32Exactness
open Bech32Substitutions

section Residues

variable {hrp left right : List Char} {symbols xs ys : List UInt8}

/-- Other symbols in the place of at most six change the register. -/
theorem residueOf_burst_ne (hrp : List Char) (front back : List UInt8) (hlength : xs.length = ys.length)
    (hsix : xs.length ≤ 6) (hxs : ∀ d ∈ xs, d < 32) (hys : ∀ d ∈ ys, d < 32) (hne : xs ≠ ys) :
    residueOf hrp (front ++ xs ++ back) ≠ residueOf hrp (front ++ ys ++ back) := by
  have hword : ∀ zs : List UInt8, (expand hrp).map UInt8.toNat ++ (front ++ zs ++ back).map UInt8.toNat =
      ((expand hrp).map UInt8.toNat ++ front.map UInt8.toNat) ++ zs.map UInt8.toNat ++ back.map UInt8.toNat := by
    intro zs
    simp
  have hlt : ∀ zs : List UInt8, (∀ d ∈ zs, d < 32) → ∀ n ∈ zs.map UInt8.toNat, n < 2 ^ 5 := by
    intro zs hzs n hn
    obtain ⟨d, hd, rfl⟩ := List.mem_map.mp hn
    exact UInt8.lt_iff_toNat_lt.mp (hzs d hd)
  rw [residueOf_eq, residueOf_eq, hword, hword]
  exact run_burst_ne move_additive (by omega) move_shift move_lt move_eq_zero 1 _ _ (by simpa using hlength)
    (by simpa using hsix) (hlt xs hxs) (hlt ys hys) fun heq => hne (map_toNat_injective heq)

theorem writes_append (h : Writes (left ++ right) symbols) :
    ∃ front back, symbols = front ++ back ∧ Writes left front ∧ Writes right back := by
  obtain ⟨hmap, hlt⟩ := h
  rw [List.map_append] at hmap
  obtain ⟨front, back, rfl, hfront, hback⟩ := List.map_eq_append_iff.mp hmap.symm
  exact ⟨front, back, rfl, ⟨hfront.symm, fun d hd => hlt d (by simp [hd])⟩,
    ⟨hback.symm, fun d hd => hlt d (by simp [hd])⟩⟩

/-- What ASCII characters write tells them apart. -/
theorem writes_injective (hleft : left.all isAscii) (hright : right.all isAscii) (h : Writes left symbols)
    (h' : Writes right symbols) : left = right := by
  rw [← map_lowByte_ascii hleft, ← map_lowByte_ascii hright, h.1, h'.1]

/-- Two data parts that differ in at most six characters side by side do not leave the same register. -/
theorem residueOf_written_ne {before middle middle' after : List Char} {symbols' : List UInt8}
    (h : Writes (before ++ middle ++ after) symbols) (h' : Writes (before ++ middle' ++ after) symbols')
    (hlength : middle.length = middle'.length) (hsix : middle.length ≤ 6) (hascii : middle.all isAscii)
    (hascii' : middle'.all isAscii) (hne : middle ≠ middle') : residueOf hrp symbols ≠ residueOf hrp symbols' := by
  obtain ⟨_, back, rfl, hfront, hback⟩ := writes_append h
  obtain ⟨front, xs, rfl, hbefore, hmiddle⟩ := writes_append hfront
  obtain ⟨_, back', rfl, hfront', hback'⟩ := writes_append h'
  obtain ⟨front', ys, rfl, hbefore', hmiddle'⟩ := writes_append hfront'
  obtain rfl := hbefore.unique hbefore'
  obtain rfl := hback.unique hback'
  have hxs := hmiddle.length
  have hys := hmiddle'.length
  refine residueOf_burst_ne hrp front back (by omega) (by omega) hmiddle.2 hmiddle'.2 ?_
  rintro rfl
  exact hne (writes_injective hascii hascii' hmiddle hmiddle')

end Residues

section Addresses

variable {lower : Lowering} {hrp hrp' before xs ys after : List Char} {v : Char} {witver : UInt8}
  {witprog symbols symbols' : List UInt8}

theorem not_reads_burst (hlower : LowersAscii lower) (hhrp : hrp ∈ supported) (h : Spells hrp witver witprog symbols)
    (hdata : symbols.map symbolAt = v :: (before ++ xs ++ after)) (hlength : xs.length = ys.length)
    (hsix : xs.length ≤ 6) (hne : xs ≠ ys) (hascii : ys.all isAscii) (hone : '1' ∉ ys)
    (hparts : Parts lower (hrp ++ '1' :: v :: (before ++ ys ++ after)) hrp' symbols') :
    39 ≤ symbols'.length ∧ ∀ witver' witprog', ¬ Spells hrp' witver' witprog' symbols' := by
  have hplain := symbols_plain h.lt
  have hnot := separator_notMem_symbols h.lt
  have hwritten := writes_symbols h.lt
  rw [hdata] at hplain hnot hwritten
  have hup : ¬ (hrp ++ '1' :: v :: (before ++ ys ++ after)).any isAsciiUppercase := by
    intro hup
    obtain ⟨-, -, -, x, y, rest, rfl, hx, -⟩ := supported_plain hrp hhrp
    exact hparts.string.2.2 ⟨List.any_eq_true.mpr ⟨x, by simp, hx⟩, hup⟩
  have hall : (hrp ++ '1' :: v :: (before ++ ys ++ after)).all isPlain := by
    have hys : ys.all isPlain := by
      rw [List.all_eq_true] at hascii ⊢
      intro e he
      have hlow : isAsciiUppercase e = false := by
        by_contra heup
        exact hup (List.any_eq_true.mpr ⟨e, by simp [he], Bool.eq_true_of_not_eq_false heup⟩)
      simp [isPlain, hascii e he, hlow]
    have hsep : isPlain '1' := by decide
    simp only [List.all_append, List.all_cons, Bool.and_eq_true] at hplain ⊢
    exact ⟨(supported_plain hrp hhrp).1, hsep, hplain.1, ⟨hplain.2.1.1, hys⟩, hplain.2.2⟩
  have hnot' : '1' ∉ v :: (before ++ ys ++ after) := by
    simp only [List.mem_cons, List.mem_append, not_or] at hnot ⊢
    exact ⟨hnot.1, ⟨hnot.2.1.1, hone⟩, hnot.2.2⟩
  obtain ⟨dataPart, heq, hwrites⟩ := hparts.split
  rw [toLowercase_plain hlower hall] at heq
  have hsplit := splitSeparator_eq_some.mpr ⟨heq, hwrites.separator_notMem⟩
  rw [splitSeparator_append hnot', Option.some.injEq, Prod.mk.injEq] at hsplit
  obtain ⟨rfl, rfl⟩ := hsplit
  have hlong := (Spells.length h).1
  have hlen := hwritten.length
  have hlen' := hwrites.length
  simp only [List.length_cons, List.length_append] at hlen hlen'
  refine ⟨by omega, ?_⟩
  intro witver' witprog' h'
  have hxs : xs.all isAscii := by
    simp only [List.all_append, List.all_cons, Bool.and_eq_true] at hplain
    exact all_ascii_of_plain hplain.2.1.2
  have hresidue : residueOf hrp symbols ≠ residueOf hrp symbols' :=
    @residueOf_written_ne hrp symbols (v :: before) xs ys after symbols' hwritten hwrites hlength hsix hxs hascii hne
  have hsame : witver = witver' := by
    obtain ⟨front, back, hfront, hversion, -⟩ := @writes_append [v] (before ++ xs ++ after) symbols hwritten
    obtain ⟨front', back', hfront', hversion', -⟩ := @writes_append [v] (before ++ ys ++ after) symbols' hwrites
    obtain rfl := hversion.unique hversion'
    obtain ⟨d, rfl⟩ := List.length_eq_one_iff.mp hversion.length.symm
    obtain ⟨-, narrow, -, hsymbols⟩ := id h
    obtain ⟨-, narrow', -, hsymbols'⟩ := id h'
    rw [hfront, List.cons_append, List.cons_append, List.cons.injEq] at hsymbols
    rw [hfront', List.cons_append, List.cons_append, List.cons.injEq] at hsymbols'
    exact hsymbols.1.symm.trans hsymbols'.1
  rw [h.residue, h'.residue, hsame] at hresidue
  exact hresidue rfl

/-- Others in the place of at most six characters side by side, behind that of the version, are rejected. -/
theorem burst_rejected (hlower : LowersAscii lower) (hhrp : hrp ∈ supported)
    (ha : encode hrp witver witprog = .ok (hrp ++ '1' :: v :: (before ++ xs ++ after)))
    (hlength : xs.length = ys.length) (hsix : xs.length ≤ 6) (hne : xs ≠ ys) (hascii : ys.all isAscii)
    (hone : '1' ∉ ys) : Rejects lower (hrp ++ '1' :: v :: (before ++ ys ++ after)) := by
  obtain ⟨-, -, symbols, hspells, heq⟩ := encode_eq_ok.mp ha
  obtain ⟨-, hdata⟩ := List.cons.inj (List.append_cancel_left heq.symm)
  rw [rejects_iff]
  rintro (⟨hrp', symbols', hparts, hshort⟩ | ⟨hrp', witver', witprog', hreads⟩)
  · have hlong := (not_reads_burst hlower hhrp hspells hdata hlength hsix hne hascii hone hparts).1
    omega
  · obtain ⟨symbols', hparts, hspells'⟩ := hreads.parts
    exact (not_reads_burst hlower hhrp hspells hdata hlength hsix hne hascii hone hparts).2 _ _ hspells'

/-- Six characters of the address of twenty zero bytes are replaced. -/
theorem zero_address_burst :
    Rejects kelvinLower (hrpMainnet ++ '1' :: 'q' :: (List.replicate 26 'q' ++ List.replicate 6 'p' ++
      ['y', 'q', 'e', 'v', 'c', '6'])) :=
  @burst_rejected kelvinLower hrpMainnet (List.replicate 26 'q') (List.replicate 6 'q') (List.replicate 6 'p')
    ['y', 'q', 'e', 'v', 'c', '6'] 'q' 0 (List.replicate 20 0) kelvinLower_ascii (by decide) (by decide +kernel) rfl (by decide)
    (by decide) (by decide) (by decide)

end Addresses

end KuberCoin.Bech32Bursts
