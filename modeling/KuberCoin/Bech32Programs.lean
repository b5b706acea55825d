import KuberCoin.Bech32Codes

/-!
Witness programs as groups of five bits. A program is regrouped in one way, and the groups are
read back exactly when fewer than five bits are left over and these are zero.
-/
namespace KuberCoin.Bech32Programs

open Regroupings Bech32Codes

section Loops

variable {width width' : ℕ} {read : List UInt8} {b : Bits}

theorem ofNat_toNat {width n : ℕ} (hw : width ≤ 8) (hn : n < 2 ^ width) : (UInt8.ofNat n).toNat = n := by
  have hle : 2 ^ width ≤ 2 ^ 8 := Nat.pow_le_pow_right (by omega) hw
  rw [UInt8.toNat_ofNat']
  exact Nat.mod_eq_of_lt (by omega)

/-- The bytes read so far, what waits and what has been given out. -/
def Holds (width width' : ℕ) (read : List UInt8) (b : Bits) : Prop :=
  Regrouped width width' (read.map UInt8.toNat) (b.result.map UInt8.toNat) b.acc b.bits

theorem drain_holds (hpos : 0 < width') (hw : width' ≤ 8) (fuel : ℕ) (hb : Holds width width' read b)
    (hfuel : b.bits ≤ fuel) : Holds width width' read (drain width' fuel b) ∧ (drain width' fuel b).bits < width' := by
  induction fuel generalizing b with
  | zero => exact ⟨hb, by rw [drain]; omega⟩
  | succ fuel ih =>
    rw [drain]
    split
    case isTrue hbits =>
      apply ih _ (by simp only; omega)
      have htake := hb.take hbits
      have hlast : (b.acc >>> (b.bits - width') &&& (2 ^ width' - 1)) < 2 ^ width' := by
        rw [Nat.and_two_pow_sub_one_eq_mod]
        exact Nat.mod_lt _ (by positivity)
      simpa only [Holds, List.map_append, List.map_cons, List.map_nil, ofNat_toNat hw hlast] using htake
    case isFalse hbits => exact ⟨hb, Nat.lt_of_not_le hbits⟩

theorem convertStep_holds (hpos : 0 < width') (hw : width' ≤ 8) (hroom : width' + width ≤ 32)
    (hb : Holds width width' read b) (hbits : b.bits < width') {value : UInt8} (hvalue : value.toNat < 2 ^ width) :
    ∃ b', convertStep width width' b value = .ok b' ∧ Holds width width' (read ++ [value]) b' ∧
      b'.bits < width' := by
  have hpush : Holds width width' (read ++ [value])
      { acc := (b.acc <<< width) % 2 ^ 32 ||| value.toNat
        bits := b.bits + width
        result := b.result } := by
    have hread := Regrouped.push 32 hb (by omega) hvalue
    simpa [Holds] using hread
  have hdrain := drain_holds hpos hw (b.bits + width) hpush le_rfl
  exact ⟨_, if_neg (Nat.not_le_of_lt hvalue), hdrain⟩

theorem foldlM_holds (hpos : 0 < width') (hw : width' ≤ 8) (hroom : width' + width ≤ 32) (data : List UInt8)
    (hb : Holds width width' read b) (hbits : b.bits < width') (hdata : ∀ v ∈ data, v.toNat < 2 ^ width) :
    ∃ b', data.foldlM (convertStep width width') b = .ok b' ∧
      Holds width width' (read ++ data) b' ∧ b'.bits < width' := by
  induction data generalizing read b with
  | nil => exact ⟨b, rfl, by rwa [List.append_nil], hbits⟩
  | cons v rest ih =>
    obtain ⟨b₁, hstep, hb₁, hbits₁⟩ := convertStep_holds hpos hw hroom hb hbits (hdata v (by simp))
    obtain ⟨b', hrest, hb', hbits'⟩ := ih hb₁ hbits₁ fun u hu => hdata u (by simp [hu])
    refine ⟨b', ?_, by simpa using hb', hbits'⟩
    rw [List.foldlM_cons, hstep]
    exact hrest

theorem lt_of_foldlM {data : List UInt8} {b' : Bits} (h : data.foldlM (convertStep width width') b = .ok b') :
    ∀ v ∈ data, v.toNat < 2 ^ width := by
  induction data generalizing b with
  | nil => simp
  | cons v rest ih =>
    rw [List.foldlM_cons] at h
    by_cases hv : 2 ^ width ≤ v.toNat
    · rw [convertStep, if_pos hv] at h
      cases h
    · rw [convertStep, if_neg hv] at h
      have hrest := ih h
      intro u hu
      rw [List.mem_cons] at hu
      obtain rfl | hin := hu
      · omega
      · exact hrest u hin

theorem start_holds (width width' : ℕ) : Holds width width' [] Bits.start := Regrouped.start width width'

end Loops

section Programs

variable {narrow program : List UInt8}

/-- A program and its groups of five bits. -/
def Grouped (program narrow : List UInt8) : Prop :=
  ∃ spare, Padded 8 5 (program.map UInt8.toNat) (narrow.map UInt8.toNat) spare

theorem map_toNat_injective {xs ys : List UInt8} (h : xs.map UInt8.toNat = ys.map UInt8.toNat) : xs = ys :=
  List.map_injective_iff.mpr (fun _ _ => UInt8.toNat_inj.mp) h

theorem Grouped.unique {narrow' : List UInt8} (h : Grouped program narrow) (h' : Grouped program narrow') :
    narrow = narrow' := by
  obtain ⟨_, hpadded⟩ := h
  obtain ⟨_, hpadded'⟩ := h'
  exact map_toNat_injective (hpadded.unique hpadded')

theorem Grouped.lt (h : Grouped program narrow) : ∀ d ∈ narrow, d < 32 := by
  obtain ⟨_, hpadded⟩ := h
  intro d hd
  have hlt := hpadded.narrow_lt d.toNat (List.mem_map_of_mem hd)
  exact UInt8.lt_iff_toNat_lt.mpr hlt

theorem Grouped.length (h : Grouped program narrow) : ∃ spare < 5, 5 * narrow.length = 8 * program.length + spare := by
  obtain ⟨spare, hpadded⟩ := h
  exact ⟨spare, hpadded.spare_lt, by simpa using hpadded.length⟩

theorem convertBits_encode (program : List UInt8) :
    ∃ narrow, convertBits program 8 5 true = .ok narrow ∧ Grouped program narrow := by
  have hbytes : ∀ v ∈ program, v.toNat < 2 ^ 8 := fun v _ => v.toNat_lt
  obtain ⟨b, hfold, hb, hbits⟩ := foldlM_holds (by omega) (by omega) (by omega)
    program (start_holds 8 5) (by decide) hbytes
  have hwide : ∀ g ∈ program.map UInt8.toNat, g < 2 ^ 8 := by
    intro g hg
    obtain ⟨v, hv, rfl⟩ := List.mem_map.mp hg
    exact hbytes v hv
  obtain ⟨spare, hpadded⟩ := Regrouped.pad 32 hb hwide hbits (by omega)
  unfold convertBits
  rw [hfold]
  have hlast : ((b.acc <<< (5 - b.bits)) % 2 ^ 32 &&& (2 ^ 5 - 1)) < 2 ^ 5 := by
    rw [Nat.and_two_pow_sub_one_eq_mod]
    exact Nat.mod_lt _ (by norm_num)
  by_cases hpos : 0 < b.bits
  · refine ⟨b.result ++ [UInt8.ofNat (((b.acc <<< (5 - b.bits)) % 2 ^ 32) &&& (2 ^ 5 - 1))], ?_, spare, ?_⟩
    · exact if_pos hpos
    · rw [if_pos hpos] at hpadded
      rw [List.map_append, List.map_cons, List.map_nil, ofNat_toNat (by omega) hlast]
      exact hpadded
  · refine ⟨b.result, if_neg hpos, spare, ?_⟩
    rw [if_neg hpos] at hpadded
    exact hpadded

theorem convertBits_decode_iff : convertBits narrow 5 8 false = .ok program ↔ Grouped program narrow := by
  have hrest : ∀ b : Bits, b.bits < 8 →
      (((b.acc <<< (8 - b.bits)) % 2 ^ 32 &&& (2 ^ 8 - 1)) = 0 ↔ b.acc % 2 ^ b.bits = 0) := by
    intro b hbits
    have hpow : 2 ^ 8 = 2 ^ b.bits * 2 ^ (8 - b.bits) := by
      rw [← pow_add]
      congr 1
      omega
    rw [Nat.and_two_pow_sub_one_eq_mod, Nat.mod_mod_of_dvd _ (by norm_num), Nat.shiftLeft_eq, hpow,
      Nat.mul_mod_mul_right, Nat.mul_eq_zero]
    simp
  constructor
  · intro h
    unfold convertBits at h
    cases hfold : narrow.foldlM (convertStep 5 8) Bits.start with
    | error e =>
      rw [hfold] at h
      cases h
    | ok b =>
      have hlt := lt_of_foldlM hfold
      obtain ⟨b', hfold', hb, hbits⟩ := foldlM_holds (by omega) (by omega)
        (by omega) narrow (start_holds 5 8) (by decide) hlt
      rw [hfold, Except.ok.injEq] at hfold'
      subst hfold'
      rw [hfold] at h
      have hnarrow : ∀ g ∈ narrow.map UInt8.toNat, g < 2 ^ 5 := by
        intro g hg
        obtain ⟨v, hv, rfl⟩ := List.mem_map.mp hg
        exact hlt v hv
      simp only [bind, Except.bind, Bool.false_eq_true, if_false] at h
      split at h
      · cases h
      · rename_i hok
        obtain ⟨hfew, hzero⟩ := not_or.mp hok
        have hres : b.result = program := by
          simpa [pure, Except.pure] using h
        subst hres
        exact ⟨b.bits, hb.padded hnarrow (by omega) ((hrest b hbits).mp (not_not.mp hzero))⟩
  · rintro ⟨spare, hpadded⟩
    have hlt : ∀ v ∈ narrow, v.toNat < 2 ^ 5 :=
      fun v hv => hpadded.narrow_lt v.toNat (List.mem_map_of_mem hv)
    obtain ⟨b, hfold, hb, hbits⟩ := foldlM_holds (by omega) (by omega)
      (by omega) narrow (start_holds 5 8) (by decide) hlt
    obtain ⟨hresult, hfew, hzero⟩ := hb.eq_of_padded hpadded (by omega) hbits
    have hok : ¬ (5 ≤ b.bits ∨ (((b.acc <<< (8 - b.bits)) % 2 ^ 32) &&& (2 ^ 8 - 1)) ≠ 0) := by
      rw [not_or, not_not, hrest b hbits]
      exact ⟨by omega, hzero⟩
    unfold convertBits
    rw [hfold]
    simp only [bind, Except.bind, Bool.false_eq_true, if_false, if_neg hok]
    exact congrArg Except.ok (map_toNat_injective hresult)

end Programs

end KuberCoin.Bech32Programs
