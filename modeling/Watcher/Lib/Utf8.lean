import Watcher.Model.GoString

/-!
# Characters as UTF-8

Reading the bytes a Unicode scalar value is written with gives that value back
(`decodeRune_encodeRune`), so the runes of a written text are its characters
(`runes_encode`). What is read from arbitrary bytes is always a list
of scalar values (`runes_scalar`).
-/

namespace Utf8

open List

/-- A Unicode scalar value: a code point that is not a surrogate. -/
def IsScalar (r : Nat) : Prop := r < 0xd800 ∨ 0xdfff < r ∧ r < 0x110000

theorem isScalar_char (c : Char) : IsScalar c.toNat := c.valid

/-! ### One character -/

private theorem toNat_lead2 : ∀ n < 32, (0xc0 ||| UInt8.ofNat n).toNat = 0xc0 + n := by decide

private theorem toNat_lead3 : ∀ n < 16, (0xe0 ||| UInt8.ofNat n).toNat = 0xe0 + n := by decide

private theorem toNat_lead4 : ∀ n < 8, (0xf0 ||| UInt8.ofNat n).toNat = 0xf0 + n := by decide

private theorem toNat_continuation : ∀ n < 64, (0x80 ||| UInt8.ofNat n).toNat = 0x80 + n := by
  decide

variable {b b₁ b₂ : UInt8} {hi lo r : Nat} {s : GoString}

/-- The bounds as numbers. -/
theorem within_iff {lo hi : UInt8} :
    within lo hi b = true ↔ lo.toNat ≤ b.toNat ∧ b.toNat ≤ hi.toNat := by
  simp only [within, Bool.and_eq_true, decide_eq_true_eq, UInt8.le_iff_toNat_le]

/-- A byte with the high bit set is not ASCII. -/
private theorem not_ascii (h : 0x80 ≤ b.toNat) : ¬b < 0x80 := by
  rw [UInt8.lt_iff_toNat_lt]
  exact Nat.not_lt.mpr h

private theorem within_continuation {n : Nat} (hb : b.toNat = 0x80 + n) (hn : n < 64) :
    within 0x80 0xbf b = true := by
  rw [within_iff]
  show 0x80 ≤ b.toNat ∧ b.toNat ≤ 0xbf
  omega

private theorem second_iff {x y l h : UInt8} (hxy : x ≠ y) (hl : 0x80 ≤ l.toNat)
    (hh : h.toNat ≤ 0xbf) {r : UInt8 × UInt8}
    (hr : r = if b = x then (l, 0xbf) else if b = y then (0x80, h) else (0x80, 0xbf)) :
    within r.1 r.2 b₁ = true ↔ (0x80 ≤ b₁.toNat ∧ b₁.toNat ≤ 0xbf) ∧
      (b.toNat = x.toNat → l.toNat ≤ b₁.toNat) ∧ (b.toNat = y.toNat → b₁.toNat ≤ h.toNat) := by
  have hlast : (0xbf : UInt8).toNat = 0xbf := rfl
  have hfirst : (0x80 : UInt8).toNat = 0x80 := rfl
  rw [within_iff, UInt8.toNat_inj, UInt8.toNat_inj, hr]
  split
  · subst x
    simp only [hlast, hxy, forall_const, false_implies, and_true]
    omega
  · rename_i hx
    split
    · subst y
      simp only [hfirst, hx, forall_const, false_implies, true_and]
      omega
    · rename_i hy
      simp only [hlast, hfirst, hx, hy, false_implies, and_true]

/-- The second of three bytes: a continuation byte, no overlong form and no surrogate. -/
private theorem second3_iff :
    within (second3 b).1 (second3 b).2 b₁ = true ↔ (0x80 ≤ b₁.toNat ∧ b₁.toNat ≤ 0xbf) ∧
      (b.toNat = 0xe0 → 0xa0 ≤ b₁.toNat) ∧ (b.toNat = 0xed → b₁.toNat ≤ 0x9f) :=
  second_iff (x := 0xe0) (y := 0xed) (l := 0xa0) (h := 0x9f) (by decide) (by decide) (by decide)
    rfl

/-- The second of four bytes: a continuation byte, no overlong form and nothing past Unicode. -/
private theorem second4_iff :
    within (second4 b).1 (second4 b).2 b₁ = true ↔ (0x80 ≤ b₁.toNat ∧ b₁.toNat ≤ 0xbf) ∧
      (b.toNat = 0xf0 → 0x90 ≤ b₁.toNat) ∧ (b.toNat = 0xf4 → b₁.toNat ≤ 0x8f) :=
  second_iff (x := 0xf0) (y := 0xf4) (l := 0x90) (h := 0x8f) (by decide) (by decide) (by decide)
    rfl

private theorem decode2 (hb : b.toNat = 0xc0 + hi) (hb₁ : b₁.toNat = 0x80 + lo)
    (hhi : 2 ≤ hi ∧ hi < 32) (hlo : lo < 64) (rest : GoString) :
    decodeRune b (b₁ :: rest) = (hi * 64 + lo, 1) := by
  have hlead : within 0xc2 0xdf b = true := within_iff.mpr (by
    show 0xc2 ≤ b.toNat ∧ b.toNat ≤ 0xdf
    omega)
  rw [decodeRune, if_neg (not_ascii (by omega)), if_pos hlead]
  simp only [if_pos (within_continuation hb₁ hlo), hb, hb₁]
  rw [show (0xc0 + hi) % 32 = hi by omega, show (0x80 + lo) % 64 = lo by omega]

private theorem decode3 {mid : Nat} (hb : b.toNat = 0xe0 + hi) (hb₁ : b₁.toNat = 0x80 + mid)
    (hb₂ : b₂.toNat = 0x80 + lo) (hhi : hi < 16) (hmid : mid < 64) (hlo : lo < 64)
    (hshort : hi = 0 → 32 ≤ mid) (hsurrogate : hi = 13 → mid < 32) (rest : GoString) :
    decodeRune b (b₁ :: b₂ :: rest) = (hi * 4096 + mid * 64 + lo, 2) := by
  have hlead2 : ¬within 0xc2 0xdf b = true := fun h => by
    have : b.toNat ≤ 0xdf := (within_iff.mp h).2
    omega
  have hlead : within 0xe0 0xef b = true := within_iff.mpr (by
    show 0xe0 ≤ b.toNat ∧ b.toNat ≤ 0xef
    omega)
  have hsecond : within (second3 b).1 (second3 b).2 b₁ = true := second3_iff.mpr (by omega)
  rw [decodeRune, if_neg (not_ascii (by omega)), if_neg hlead2, if_pos hlead]
  simp only [hsecond, within_continuation hb₂ hlo, Bool.and_self, ↓reduceIte, hb, hb₁, hb₂]
  -- the lead byte and the continuation bytes without their marks
  rw [show (0xe0 + hi) % 16 = hi by omega, show (0x80 + mid) % 64 = mid by omega,
    show (0x80 + lo) % 64 = lo by omega]

private theorem decode4 {b₃ : UInt8} {mid mid' : Nat} (hb : b.toNat = 0xf0 + hi)
    (hb₁ : b₁.toNat = 0x80 + mid) (hb₂ : b₂.toNat = 0x80 + mid') (hb₃ : b₃.toNat = 0x80 + lo)
    (hhi : hi ≤ 4) (hmid : mid < 64) (hmid' : mid' < 64) (hlo : lo < 64)
    (hshort : hi = 0 → 16 ≤ mid) (hlong : hi = 4 → mid < 16) (rest : GoString) :
    decodeRune b (b₁ :: b₂ :: b₃ :: rest) = (hi * 262144 + mid * 4096 + mid' * 64 + lo, 3) := by
  have hlead2 : ¬within 0xc2 0xdf b = true := fun h => by
    have : b.toNat ≤ 0xdf := (within_iff.mp h).2
    omega
  have hlead3 : ¬within 0xe0 0xef b = true := fun h => by
    have : b.toNat ≤ 0xef := (within_iff.mp h).2
    omega
  have hlead : within 0xf0 0xf4 b = true := within_iff.mpr (by
    show 0xf0 ≤ b.toNat ∧ b.toNat ≤ 0xf4
    omega)
  have hsecond : within (second4 b).1 (second4 b).2 b₁ = true := second4_iff.mpr (by omega)
  rw [decodeRune, if_neg (not_ascii (by omega)), if_neg hlead2, if_neg hlead3, if_pos hlead]
  simp only [hsecond, within_continuation hb₂ hmid', within_continuation hb₃ hlo, Bool.and_self,
    ↓reduceIte, hb, hb₁, hb₂, hb₃]
  rw [show (0xf0 + hi) % 8 = hi by omega, show (0x80 + mid) % 64 = mid by omega,
    show (0x80 + mid') % 64 = mid' by omega, show (0x80 + lo) % 64 = lo by omega]

/-- The bytes of a character are read as this character, whatever follows. -/
theorem decodeRune_encodeRune (h : IsScalar r) :
    ∃ b bs, encodeRune r = b :: bs ∧ ∀ rest, decodeRune b (bs ++ rest) = (r, bs.length) := by
  unfold encodeRune
  unfold IsScalar at h
  -- by the number of bytes, as `encodeRune` does
  by_cases h₁ : r < 0x80
  · refine ⟨_, _, if_pos h₁, fun rest => ?_⟩
    have hr : (UInt8.ofNat r).toNat = r := UInt8.toNat_ofNat_of_lt' (Nat.lt_trans h₁ (by decide))
    have hlt : UInt8.ofNat r < 0x80 := by
      rw [UInt8.lt_iff_toNat_lt, hr]
      exact h₁
    show decodeRune (UInt8.ofNat r) rest = (r, 0)
    unfold decodeRune
    rw [if_pos hlt, hr]
  · rw [if_neg h₁]
    by_cases h₂ : r < 0x800
    · refine ⟨_, _, if_pos h₂, fun rest => ?_⟩
      have hdec := decode2 (toNat_lead2 (r / 64) (by omega))
        (toNat_continuation (r % 64) (by omega)) (by omega) (by omega) rest
      exact hdec.trans (Prod.ext (by show r / 64 * 64 + r % 64 = r; omega) rfl)
    · rw [if_neg h₂, if_neg (by omega)]
      by_cases h₃ : r < 0x10000
      · refine ⟨_, _, if_pos h₃, fun rest => ?_⟩
        have hdec := decode3 (toNat_lead3 (r / 4096) (by omega))
          (toNat_continuation (r / 64 % 64) (by omega)) (toNat_continuation (r % 64) (by omega))
          (by omega) (by omega) (by omega) (by omega) (by omega) rest
        exact hdec.trans
          (Prod.ext (by show r / 4096 * 4096 + r / 64 % 64 * 64 + r % 64 = r; omega) rfl)
      · refine ⟨_, _, if_neg h₃, fun rest => ?_⟩
        have hdec := decode4 (toNat_lead4 (r / 262144) (by omega))
          (toNat_continuation (r / 4096 % 64) (by omega))
          (toNat_continuation (r / 64 % 64) (by omega)) (toNat_continuation (r % 64) (by omega))
          (by omega) (by omega) (by omega) (by omega) (by omega) (by omega) rest
        exact hdec.trans (Prod.ext (by
          show r / 262144 * 262144 + r / 4096 % 64 * 4096 + r / 64 % 64 * 64 + r % 64 = r
          omega) rfl)

/-- An ASCII byte stands for itself only. -/
theorem notMem_encodeRune {n : UInt8} (hn : n.toNat < 0x80) (hr : r ≠ n.toNat) :
    n ∉ encodeRune r := by
  intro hmem
  by_cases hascii : r < 0x80
  · rw [encodeRune, if_pos hascii, mem_singleton] at hmem
    apply hr
    rw [hmem, UInt8.toNat_ofNat_of_lt' (Nat.lt_trans hascii (by decide))]
  · have hge := UInt8.le_iff_toNat_le.mp (encodeRune_ge r (by omega) n hmem)
    exact absurd hn (Nat.not_lt.mpr hge)

/-! ### Whole strings -/

theorem runesFrom_skip (l rest : GoString) : runesFrom l.length (l ++ rest) = runesFrom 0 rest := by
  induction l with
  | nil => rfl
  | cons b l ih => exact ih

theorem runes_cons (h : IsScalar r) (rest : GoString) :
    runes (encodeRune r ++ rest) = r :: runes rest := by
  obtain ⟨b, bs, heq, hdec⟩ := decodeRune_encodeRune h
  rw [heq, cons_append, runes, runesFrom, hdec, runesFrom_skip]
  rfl

/-- Characters that were written are read as they were. -/
theorem runes_flatMap_encodeRune {rs : List Nat} (h : ∀ r ∈ rs, IsScalar r) :
    runes (rs.flatMap encodeRune) = rs := by
  induction rs with
  | nil => rfl
  | cons r rs ih =>
    rw [flatMap_cons, runes_cons (h r mem_cons_self), ih fun r' hr' => h r' (mem_cons_of_mem r hr')]

/-- A text as UTF-8. -/
def encode (cs : List Char) : GoString := cs.flatMap fun c => encodeRune c.toNat

theorem runes_encode (cs : List Char) : runes (encode cs) = cs.map Char.toNat := by
  have hscalar : ∀ r ∈ cs.map Char.toNat, IsScalar r := by
    intro r hr
    obtain ⟨c, -, rfl⟩ := mem_map.mp hr
    exact isScalar_char c
  rw [← runes_flatMap_encodeRune hscalar, flatMap_map]
  rfl

theorem map_toNat_inj {cs ds : List Char} : cs.map Char.toNat = ds.map Char.toNat ↔ cs = ds :=
  map_inj_right fun _ _ => Char.toNat_inj.mp

theorem encode_inj {cs ds : List Char} : encode cs = encode ds ↔ cs = ds := by
  constructor
  · intro h
    have := congrArg runes h
    rwa [runes_encode, runes_encode, map_toNat_inj] at this
  · exact congrArg encode

/-! ### The bytes of a rune, back from what they stand for -/

private theorem continuation_eq (hb : 0x80 ≤ b.toNat ∧ b.toNat ≤ 0xbf) {n : Nat}
    (hn : n = b.toNat % 64) : 0x80 ||| UInt8.ofNat n = b := by
  apply UInt8.toNat_inj.mp
  rw [toNat_continuation n (by omega)]
  omega

private theorem encode2 (hlead : within 0xc2 0xdf b = true) (hsecond : within 0x80 0xbf b₁ = true) :
    IsScalar (b.toNat % 32 * 64 + b₁.toNat % 64) ∧
      encodeRune (b.toNat % 32 * 64 + b₁.toNat % 64) = [b, b₁] := by
  have hb : 0xc2 ≤ b.toNat ∧ b.toNat ≤ 0xdf := within_iff.mp hlead
  have hb₁ : 0x80 ≤ b₁.toNat ∧ b₁.toNat ≤ 0xbf := within_iff.mp hsecond
  refine ⟨.inl (by omega), ?_⟩
  rw [encodeRune, if_neg (by omega), if_pos (by omega)]
  refine congrArg₂ List.cons ?_ (congrArg₂ List.cons (continuation_eq hb₁ (by omega)) rfl)
  apply UInt8.toNat_inj.mp
  rw [toNat_lead2 _ (by omega)]
  omega

/-- And so are three bytes. -/
private theorem encode3 (hlead : within 0xe0 0xef b = true)
    (hsecond : within (second3 b).1 (second3 b).2 b₁ = true) (hthird : within 0x80 0xbf b₂ = true) :
    IsScalar (b.toNat % 16 * 4096 + b₁.toNat % 64 * 64 + b₂.toNat % 64) ∧
      encodeRune (b.toNat % 16 * 4096 + b₁.toNat % 64 * 64 + b₂.toNat % 64) = [b, b₁, b₂] := by
  have hb : 0xe0 ≤ b.toNat ∧ b.toNat ≤ 0xef := within_iff.mp hlead
  obtain ⟨hb₁, hshort, hsurrogate⟩ := second3_iff.mp hsecond
  have hb₂ : 0x80 ≤ b₂.toNat ∧ b₂.toNat ≤ 0xbf := within_iff.mp hthird
  have hscalar : IsScalar (b.toNat % 16 * 4096 + b₁.toNat % 64 * 64 + b₂.toNat % 64) := by
    unfold IsScalar
    omega
  refine ⟨hscalar, ?_⟩
  unfold IsScalar at hscalar
  rw [encodeRune, if_neg (by omega), if_neg (by omega), if_neg (by omega), if_pos (by omega)]
  refine congrArg₂ List.cons ?_ (congrArg₂ List.cons (continuation_eq hb₁ (by omega))
    (congrArg₂ List.cons (continuation_eq hb₂ (by omega)) rfl))
  apply UInt8.toNat_inj.mp
  rw [toNat_lead3 _ (by omega)]
  omega

/-- And so are four. -/
private theorem encode4 {b₃ : UInt8} (hlead : within 0xf0 0xf4 b = true)
    (hsecond : within (second4 b).1 (second4 b).2 b₁ = true) (hthird : within 0x80 0xbf b₂ = true)
    (hfourth : within 0x80 0xbf b₃ = true) :
    let r := b.toNat % 8 * 262144 + b₁.toNat % 64 * 4096 + b₂.toNat % 64 * 64 + b₃.toNat % 64
    IsScalar r ∧ encodeRune r = [b, b₁, b₂, b₃] := by
  have hb : 0xf0 ≤ b.toNat ∧ b.toNat ≤ 0xf4 := within_iff.mp hlead
  obtain ⟨hb₁, hshort, hlong⟩ := second4_iff.mp hsecond
  have hb₂ : 0x80 ≤ b₂.toNat ∧ b₂.toNat ≤ 0xbf := within_iff.mp hthird
  have hb₃ : 0x80 ≤ b₃.toNat ∧ b₃.toNat ≤ 0xbf := within_iff.mp hfourth
  intro r
  have hr : 0x10000 ≤ r ∧ r < 0x110000 := by omega
  refine ⟨.inr ⟨by omega, hr.2⟩, ?_⟩
  rw [encodeRune, if_neg (by omega), if_neg (by omega), if_neg (by omega), if_neg (by omega)]
  refine congrArg₂ List.cons ?_ (congrArg₂ List.cons (continuation_eq hb₁ (by omega))
    (congrArg₂ List.cons (continuation_eq hb₂ (by omega))
      (congrArg₂ List.cons (continuation_eq hb₃ (by omega)) rfl)))
  apply UInt8.toNat_inj.mp
  rw [toNat_lead4 _ (by omega)]
  omega

/-- What decoding can do: it meets a byte that starts no rune, or it takes the bytes that
    `encodeRune` writes for a scalar value. -/
theorem decodeRune_cases (b : UInt8) (s : GoString) :
    decodeRune b s = (runeError, 0) ∨
      ∃ bs rest, s = bs ++ rest ∧ (decodeRune b s).2 = bs.length ∧
        IsScalar (decodeRune b s).1 ∧ encodeRune (decodeRune b s).1 = b :: bs := by
  unfold decodeRune
  -- by the lead byte: what is short or out of bounds is `runeError`
  split
  · rename_i h
    have hb : b.toNat < 0x80 := UInt8.lt_iff_toNat_lt.mp h
    refine .inr ⟨[], s, rfl, rfl, .inl (Nat.lt_trans hb (by decide)), ?_⟩
    show encodeRune b.toNat = [b]
    rw [encodeRune, if_pos hb, UInt8.ofNat_toNat]
  split
  · rename_i hlead
    split
    · rename_i b₁ rest
      split
      · rename_i hsecond
        exact .inr ⟨[b₁], rest, rfl, rfl, encode2 hlead hsecond⟩
      · exact .inl rfl
    · exact .inl rfl
  split
  · rename_i hlead
    split
    · rename_i b₁ b₂ rest
      split
      · rename_i hbytes
        rw [Bool.and_eq_true] at hbytes
        exact .inr ⟨[b₁, b₂], rest, rfl, rfl, encode3 hlead hbytes.1 hbytes.2⟩
      · exact .inl rfl
    · exact .inl rfl
  split
  · rename_i hlead
    split
    · rename_i b₁ b₂ b₃ rest
      split
      · rename_i hbytes
        rw [Bool.and_eq_true, Bool.and_eq_true] at hbytes
        exact .inr ⟨[b₁, b₂, b₃], rest, rfl, rfl, encode4 hlead hbytes.1.1 hbytes.1.2 hbytes.2⟩
      · exact .inl rfl
    · exact .inl rfl
  · exact .inl rfl

theorem isScalar_decodeRune (b : UInt8) (s : GoString) : IsScalar (decodeRune b s).1 := by
  rcases decodeRune_cases b s with h | ⟨_, _, _, _, h, _⟩
  · rw [h]
    exact .inr ⟨by decide, by decide⟩
  · exact h

/-- What is read from any bytes are scalar values. -/
theorem runes_scalar (s : GoString) : ∀ r ∈ runes s, IsScalar r := by
  have hfrom : ∀ skip, ∀ r ∈ runesFrom skip s, IsScalar r := by
    intro skip
    fun_induction runesFrom skip s with
    | case1 => exact fun r hr => nomatch hr
    | case2 skip b s ih => exact ih
    | case3 b s ih =>
      intro r hr
      rcases mem_cons.mp hr with rfl | hr
      · exact isScalar_decodeRune b s
      · exact ih r hr
  exact hfrom 0

/-! ### Valid texts -/

/-- The bytes are those of some text. -/
def IsValid (s : GoString) : Prop := ∃ cs : List Char, s = encode cs

/-- Scalar values are written as a text. -/
theorem isValid_flatMap_encodeRune {rs : List Nat} (h : ∀ r ∈ rs, IsScalar r) :
    IsValid (rs.flatMap encodeRune) := by
  refine ⟨rs.map Char.ofNat, ?_⟩
  rw [encode, flatMap_map]
  apply flatMap_congr
  intro r hr
  have hr : r.isValidChar := h r hr
  rw [Char.ofNat, dif_pos hr]
  rfl

/-- Whatever is written rune by rune is a valid text. -/
theorem isValid_encodeRunes (rs : List Nat) : IsValid (rs.flatMap encodeRune) := by
  induction rs with
  | nil => exact ⟨[], rfl⟩
  | cons r rs ih =>
    have hrune : IsValid (encodeRune r) := by
      by_cases h : IsScalar r
      · have hone := isValid_flatMap_encodeRune (forall_mem_singleton.mpr h)
        rwa [flatMap_singleton] at hone
      · -- what is no character is written as `runeError`
        have herror : encodeRune r = encodeRune runeError := by
          unfold IsScalar at h
          rw [encodeRune, if_neg (by omega), if_neg (by omega), if_pos (by omega)]
          rfl
        have hone : IsValid ([runeError].flatMap encodeRune) :=
          isValid_flatMap_encodeRune (forall_mem_singleton.mpr (.inr (by decide)))
        rwa [flatMap_singleton, ← herror] at hone
    obtain ⟨cs, hcs⟩ := hrune
    obtain ⟨ds, hds⟩ := ih
    refine ⟨cs ++ ds, ?_⟩
    rw [flatMap_cons, hcs, hds, encode, encode, encode, flatMap_append]

/-- ASCII is valid as it stands. -/
theorem isValid_of_ascii (h : ∀ b ∈ s, b.toNat < 0x80) : IsValid s := by
  have hwrite : (s.map UInt8.toNat).flatMap encodeRune = s := by
    induction s with
    | nil => rfl
    | cons b s ih =>
      have hb := h b mem_cons_self
      have htail := ih fun b' hb' => h b' (mem_cons_of_mem b hb')
      rw [map_cons, flatMap_cons, htail, encodeRune, if_pos hb, UInt8.ofNat_toNat, singleton_append]
  rw [← hwrite]
  exact isValid_encodeRunes _

theorem flatMap_encodeRune_runes (h : IsValid s) : (runes s).flatMap encodeRune = s := by
  obtain ⟨cs, rfl⟩ := h
  rw [runes_encode, flatMap_map]
  rfl

theorem runes_inj {t : GoString} (hs : IsValid s) (ht : IsValid t) (h : runes s = runes t) :
    s = t := by
  rw [← flatMap_encodeRune_runes hs, ← flatMap_encodeRune_runes ht, h]

/-- What is not UTF-8 shows as `runeError`. -/
theorem runeError_mem_runes (h : ¬IsValid s) : runeError ∈ runes s := by
  -- without an error the runes are written back as the bytes they were read from
  have hback : ∀ n, ∀ s : GoString, s.length ≤ n → runeError ∉ runes s →
      (runes s).flatMap encodeRune = s := by
    intro n
    -- by the length, since a rune takes several bytes
    induction n with
    | zero =>
      intro s hs _
      rw [eq_nil_of_length_eq_zero (Nat.le_zero.mp hs)]
      rfl
    | succ n ih =>
      intro s hs hno
      cases s with
      | nil => rfl
      | cons b s =>
        rw [runes, runesFrom, mem_cons, not_or] at hno
        rcases decodeRune_cases b s with herr | ⟨bs, rest, hsplit, hskip, _, hwrite⟩
        · rw [herr] at hno
          exact absurd rfl hno.1
        · have hrest : runesFrom (decodeRune b s).2 s = runes rest := by
            rw [hskip, hsplit, runesFrom_skip]
            rfl
          rw [length_cons, hsplit, length_append] at hs
          have := ih rest (by omega) (hrest ▸ hno.2)
          rw [runes, runesFrom, hrest, flatMap_cons, hwrite, this, cons_append, ← hsplit]
  by_contra hno
  apply h
  rw [← hback s.length s (Nat.le_refl _) hno]
  exact isValid_flatMap_encodeRune (runes_scalar s)

/-! ### The bytes a rune is read from -/

/-- A byte that goes on with a rune. -/
def isContinuation (b : UInt8) : Bool := within 0x80 0xbf b

private theorem isContinuation_of_bounds (h : 0x80 ≤ b.toNat ∧ b.toNat ≤ 0xbf) :
    isContinuation b = true :=
  within_iff.mpr h

/-- Decoding looks at continuation bytes only. -/
theorem decodeRune_takeWhile (b : UInt8) (s : GoString) :
    decodeRune b (s.takeWhile isContinuation) = decodeRune b s := by
  -- a byte that does not go on with a rune is out of every second byte's bounds
  have h2 : ∀ {b₁}, isContinuation b₁ = false → within 0x80 0xbf b₁ = false := id
  have h3 : ∀ {b₁}, isContinuation b₁ = false → within (second3 b).1 (second3 b).2 b₁ = false := by
    intro b₁ h
    apply Bool.eq_false_iff.mpr
    intro hsecond
    rw [isContinuation_of_bounds (second3_iff.mp hsecond).1] at h
    exact nomatch h
  have h4 : ∀ {b₁}, isContinuation b₁ = false → within (second4 b).1 (second4 b).2 b₁ = false := by
    intro b₁ h
    apply Bool.eq_false_iff.mpr
    intro hsecond
    rw [isContinuation_of_bounds (second4_iff.mp hsecond).1] at h
    exact nomatch h
  -- by the lead byte, then by where the continuation bytes stop
  unfold decodeRune
  split
  · rfl
  split
  · rcases s with _ | ⟨b₁, s⟩
    · rfl
    · cases h₁ : isContinuation b₁ <;> simp [h₁, h2]
  split
  · rcases s with _ | ⟨b₁, _ | ⟨b₂, s⟩⟩
    · rfl
    · cases h₁ : isContinuation b₁ <;> simp [h₁]
    · cases h₁ : isContinuation b₁ <;> cases h₂ : isContinuation b₂ <;> simp [h₁, h₂, h2, h3]
  split
  · rcases s with _ | ⟨b₁, _ | ⟨b₂, _ | ⟨b₃, s⟩⟩⟩
    · rfl
    · cases h₁ : isContinuation b₁ <;> simp [h₁]
    · cases h₁ : isContinuation b₁ <;> cases h₂ : isContinuation b₂ <;> simp [h₁, h₂]
    · cases h₁ : isContinuation b₁ <;> cases h₂ : isContinuation b₂ <;>
        cases h₃ : isContinuation b₃ <;> simp [h₁, h₂, h₃, h2, h4]
  · rfl

/-- A byte that is no continuation byte stops the decoding as the end of the text does. -/
theorem decodeRune_append_cons {c : UInt8} (hc : isContinuation c = false) (b : UInt8)
    (s rest : GoString) : decodeRune b (s ++ c :: rest) = decodeRune b s := by
  have htake : (s ++ c :: rest).takeWhile isContinuation = s.takeWhile isContinuation := by
    rw [takeWhile_append]
    split
    · rename_i hall
      rw [takeWhile_cons_of_neg (by simp [hc]), append_nil]
      exact ((takeWhile_sublist _).eq_of_length hall).symm
    · rfl
  rw [← decodeRune_takeWhile, htake, decodeRune_takeWhile]

/-- All bytes of a rune but the first are continuation bytes. -/
theorem decodeRune_snd_le (b : UInt8) (s : GoString) :
    (decodeRune b s).2 ≤ (s.takeWhile isContinuation).length := by
  rw [← decodeRune_takeWhile]
  rcases decodeRune_cases b (s.takeWhile isContinuation) with h | ⟨bs, rest, hs, hlen, -⟩
  · rw [h]
    exact Nat.zero_le _
  · rw [hlen, hs, length_append]
    omega

theorem isContinuation_of_decodeRune {bs : GoString} (h : (decodeRune b bs).2 = bs.length) :
    ∀ c ∈ bs, isContinuation c = true := by
  have hle := decodeRune_snd_le b bs
  rw [h] at hle
  have htake := (takeWhile_sublist isContinuation).eq_of_length
    (Nat.le_antisymm (takeWhile_sublist _).length_le hle)
  intro c hc
  rw [← htake] at hc
  exact all_eq_true.mp all_takeWhile c hc

/-- Only an ASCII byte starts an ASCII character. -/
theorem decodeRune_ge (h : ¬b < 0x80) (s : GoString) : 0x80 ≤ (decodeRune b s).1 := by
  rcases decodeRune_cases b s with herror | ⟨bs, rest, -, -, -, hwrite⟩
  · rw [herror]
    decide
  · by_contra hge
    have hlt : (decodeRune b s).1 < 0x80 := by omega
    rw [encodeRune, if_pos hlt] at hwrite
    injection hwrite with hb
    apply h
    rw [← hb, UInt8.lt_iff_toNat_lt, UInt8.toNat_ofNat_of_lt' (Nat.lt_trans hlt (by decide))]
    exact hlt

end Utf8
