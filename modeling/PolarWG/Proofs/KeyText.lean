import PolarWG.KeyText

/-!
# The text of a key

Decoding undoes encoding. The last two of a text's 258 bits are in no key, so a text is the one
that is printed for its key exactly when they are zero.
-/

namespace PolarWG

/-! ## Sextets -/

theorem b64Value_b64Char : ∀ v < 64, b64Value (b64Char v) = some v := by
  decide +kernel

theorem b64Char_congr {v w : ℕ} (h : v % 64 = w % 64) : b64Char v = b64Char w := by
  have hmod : ∀ n, n &&& 0x3f = n % 64 := fun n => Nat.and_two_pow_sub_one_eq_mod n 6
  rw [b64Char, b64Char, hmod, hmod, h]

theorem b64Char_runs : (∀ i < 26, b64Char i = Char.ofNat (i + 65))
    ∧ (∀ i < 26, b64Char (i + 26) = Char.ofNat (i + 97))
    ∧ (∀ i < 10, b64Char (i + 52) = Char.ofNat (i + 48)) := by
  decide +kernel

/-- A run of the table that starts at the letter `lo`. -/
theorem b64Char_run {lo hi c : Char} {len : ℕ} (base : ℕ) (hlen : hi.toNat < lo.toNat + len)
    (hbase : base + len ≤ 64) (hrun : ∀ i < len, b64Char (i + base) = Char.ofNat (i + lo.toNat))
    (h : lo ≤ c ∧ c ≤ hi) :
    c.toNat - lo.toNat + base < 64 ∧ b64Char (c.toNat - lo.toNat + base) = c := by
  have h1 : lo.toNat ≤ c.toNat := h.1
  have h2 : c.toNat ≤ hi.toNat := h.2
  have hlt : c.toNat - lo.toNat < len := by omega
  rw [hrun _ hlt, Nat.sub_add_cancel h1, Char.ofNat_toNat]
  exact ⟨by omega, rfl⟩

theorem b64Value_some {c : Char} {v : ℕ} (h : b64Value c = some v) : v < 64 ∧ b64Char v = c := by
  obtain ⟨hupper, hlower, hdigit⟩ := b64Char_runs
  unfold b64Value at h
  split at h
  · next hc =>
    obtain rfl := Option.some.inj h
    exact b64Char_run 0 (by decide) (by decide) hupper hc
  split at h
  · next hc =>
    obtain rfl := Option.some.inj h
    exact b64Char_run 26 (by decide) (by decide) hlower hc
  split at h
  · next hc =>
    obtain rfl := Option.some.inj h
    exact b64Char_run 52 (by decide) (by decide) hdigit hc
  split at h
  · next hc =>
    obtain rfl := Option.some.inj h
    exact ⟨by decide, hc ▸ rfl⟩
  split at h
  · next hc =>
    obtain rfl := Option.some.inj h
    exact ⟨by decide, hc ▸ rfl⟩
  · cases h

/-! ## Groups -/

theorem shl_or {x y : ℕ} (k : ℕ) (h : y < 2 ^ k) : x <<< k ||| y = x * 2 ^ k + y := by
  rw [← Nat.shiftLeft_add_eq_or_of_lt h, Nat.shiftLeft_eq]

/-- Three bytes as four sextets, in arithmetic. -/
theorem b64Encode_cons (a b c : UInt8) (rest : Bytes) :
    b64Encode (a :: b :: c :: rest) = b64Char (a.toNat / 4)
      :: b64Char (a.toNat % 4 * 16 + b.toNat / 16) :: b64Char (b.toNat % 16 * 4 + c.toNat / 64)
      :: b64Char (c.toNat % 64) :: b64Encode rest := by
  have ha := a.toNat_lt
  have hb := b.toNat_lt
  have hc := c.toNat_lt
  simp only [b64Encode, Nat.shiftRight_eq_div_pow]
  generalize a.toNat = x at *
  generalize b.toNat = y at *
  generalize c.toNat = z at *
  have hv : x <<< 16 ||| y <<< 8 ||| z = x * 65536 + (y * 256 + z) := by
    rw [Nat.or_assoc, shl_or 8 hc, shl_or 16 (by omega)]
    rfl
  have e₀ : b64Char ((x * 65536 + (y * 256 + z)) / 2 ^ 18) = b64Char (x / 4) :=
    b64Char_congr (by omega)
  have e₁ : b64Char ((x * 65536 + (y * 256 + z)) / 2 ^ 12) = b64Char (x % 4 * 16 + y / 16) :=
    b64Char_congr (by omega)
  have e₂ : b64Char ((x * 65536 + (y * 256 + z)) / 2 ^ 6) = b64Char (y % 16 * 4 + z / 64) :=
    b64Char_congr (by omega)
  have e₃ : b64Char (x * 65536 + (y * 256 + z)) = b64Char (z % 64) := b64Char_congr (by omega)
  rw [hv, e₀, e₁, e₂, e₃]

theorem b64Encode_pair (a b : UInt8) : b64Encode [a, b] = [b64Char (a.toNat / 4),
    b64Char (a.toNat % 4 * 16 + b.toNat / 16), b64Char (b.toNat % 16 * 4), '='] := by
  have ha := a.toNat_lt
  have hb := b.toNat_lt
  simp only [b64Encode, Nat.shiftRight_eq_div_pow]
  generalize a.toNat = x at *
  generalize b.toNat = y at *
  have hv : x <<< 16 ||| y <<< 8 = x * 65536 + y * 256 := by
    rw [Nat.shiftLeft_eq y, shl_or 16 (by omega)]
    rfl
  have e₀ : b64Char ((x * 65536 + y * 256) / 2 ^ 18) = b64Char (x / 4) := b64Char_congr (by omega)
  have e₁ : b64Char ((x * 65536 + y * 256) / 2 ^ 12) = b64Char (x % 4 * 16 + y / 16) :=
    b64Char_congr (by omega)
  have e₂ : b64Char ((x * 65536 + y * 256) / 2 ^ 6) = b64Char (y % 16 * 4) :=
    b64Char_congr (by omega)
  rw [hv, e₀, e₁, e₂]

theorem ne_pad {c : Char} {v : ℕ} (h : b64Value c = some v) : c ≠ '=' := by
  rintro rfl
  cases h

/-- The bytes of a group, in arithmetic. -/
theorem sextets_bytes (v₀ : ℕ) {v₁ v₂ v₃ : ℕ} (h₁ : v₁ < 64) (h₂ : v₂ < 64) (h₃ : v₃ < 64) :
    v₀ <<< 2 ||| v₁ >>> 4 = v₀ * 4 + v₁ / 16
      ∧ (v₁ &&& 0x0f) <<< 4 ||| v₂ >>> 2 = v₁ % 16 * 16 + v₂ / 4
      ∧ (v₂ &&& 0x03) <<< 6 ||| v₃ = v₂ % 4 * 64 + v₃ := by
  have hm₁ : v₁ &&& 0x0f = v₁ % 16 := Nat.and_two_pow_sub_one_eq_mod v₁ 4
  have hm₂ : v₂ &&& 0x03 = v₂ % 4 := Nat.and_two_pow_sub_one_eq_mod v₂ 2
  simp only [Nat.shiftRight_eq_div_pow, hm₁, hm₂]
  exact ⟨shl_or 2 (by omega), shl_or 4 (by omega), shl_or 6 (by omega)⟩

theorem b64Groups_cons {c₀ c₁ c₂ c₃ : Char} {v₀ v₁ v₂ v₃ : ℕ} (t : Text)
    (h₀ : b64Value c₀ = some v₀) (h₁ : b64Value c₁ = some v₁) (h₂ : b64Value c₂ = some v₂)
    (h₃ : b64Value c₃ = some v₃) : b64Groups (c₀ :: c₁ :: c₂ :: c₃ :: t)
      = (b64Groups t).map fun out => UInt8.ofNat (v₀ * 4 + v₁ / 16)
        :: UInt8.ofNat (v₁ % 16 * 16 + v₂ / 4) :: UInt8.ofNat (v₂ % 4 * 64 + v₃) :: out := by
  obtain ⟨e₀, e₁, e₂⟩ := sextets_bytes v₀ (b64Value_some h₁).1 (b64Value_some h₂).1
    (b64Value_some h₃).1
  simp only [b64Groups, h₀, h₁, h₂, h₃, ne_pad h₂, ne_pad h₃, if_false, Option.bind_eq_bind,
    Option.bind_some, Option.pure_def, e₀, e₁, e₂]
  rcases b64Groups t with _ | out <;> rfl

theorem b64Groups_pair {c₀ c₁ c₂ : Char} {v₀ v₁ v₂ : ℕ} (t : Text) (h₀ : b64Value c₀ = some v₀)
    (h₁ : b64Value c₁ = some v₁) (h₂ : b64Value c₂ = some v₂) :
    b64Groups (c₀ :: c₁ :: c₂ :: '=' :: t)
      = some [UInt8.ofNat (v₀ * 4 + v₁ / 16), UInt8.ofNat (v₁ % 16 * 16 + v₂ / 4)] := by
  obtain ⟨e₀, e₁, -⟩ := sextets_bytes v₀ (b64Value_some h₁).1 (b64Value_some h₂).1
    (show 0 < 64 by decide)
  simp only [b64Groups, h₀, h₁, h₂, ne_pad h₂, if_false, if_true, Option.bind_eq_bind,
    Option.bind_some, Option.pure_def, e₀, e₁]

/-! ## Encoded, then decoded -/

/-- A key is as many triplets as its length has, and two bytes more. -/
theorem length_b64Encode : ∀ (n : ℕ) (key : Bytes), key.length = 3 * n + 2 →
    (b64Encode key).length = 4 * n + 4
  | 0, key, h => by
    obtain ⟨a, b, rfl⟩ := List.length_eq_two.mp h
    rfl
  | n + 1, a :: b :: c :: rest, h => by
    simp only [List.length_cons] at h
    have ih := length_b64Encode n rest (by omega)
    rw [b64Encode_cons]
    simp only [List.length_cons, ih]
    omega

theorem b64Groups_b64Encode : ∀ (n : ℕ) (key : Bytes), key.length = 3 * n + 2 →
    b64Groups (b64Encode key) = some key
  | 0, key, h => by
    obtain ⟨a, b, rfl⟩ := List.length_eq_two.mp h
    have ha := a.toNat_lt
    have hb := b.toNat_lt
    rw [b64Encode_pair, b64Groups_pair [] (b64Value_b64Char _ (by omega))
      (b64Value_b64Char _ (by omega)) (b64Value_b64Char _ (by omega))]
    have e₀ : a.toNat / 4 * 4 + (a.toNat % 4 * 16 + b.toNat / 16) / 16 = a.toNat := by omega
    have e₁ : (a.toNat % 4 * 16 + b.toNat / 16) % 16 * 16 + b.toNat % 16 * 4 / 4 = b.toNat := by
      omega
    rw [e₀, e₁, UInt8.ofNat_toNat, UInt8.ofNat_toNat]
  | n + 1, a :: b :: c :: rest, h => by
    simp only [List.length_cons] at h
    have ih := b64Groups_b64Encode n rest (by omega)
    have ha := a.toNat_lt
    have hb := b.toNat_lt
    have hc := c.toNat_lt
    rw [b64Encode_cons, b64Groups_cons _ (b64Value_b64Char _ (by omega))
      (b64Value_b64Char _ (by omega)) (b64Value_b64Char _ (by omega))
      (b64Value_b64Char _ (by omega)), ih]
    have e₀ : a.toNat / 4 * 4 + (a.toNat % 4 * 16 + b.toNat / 16) / 16 = a.toNat := by omega
    have e₁ : (a.toNat % 4 * 16 + b.toNat / 16) % 16 * 16 + (b.toNat % 16 * 4 + c.toNat / 64) / 4
        = b.toNat := by omega
    have e₂ : (b.toNat % 16 * 4 + c.toNat / 64) % 4 * 64 + c.toNat % 64 = c.toNat := by omega
    rw [e₀, e₁, e₂]
    simp only [Option.map_some, UInt8.ofNat_toNat]

/-! ## Decoded, then encoded -/

/-- The ways a group can be read. -/
theorem b64Groups_some {c₀ c₁ c₂ c₃ : Char} {t : Text} {key : Bytes}
    (h : b64Groups (c₀ :: c₁ :: c₂ :: c₃ :: t) = some key) :
    ∃ v₀ v₁, b64Value c₀ = some v₀ ∧ b64Value c₁ = some v₁ ∧ (key.length = 1 ∨ ∃ v₂,
      b64Value c₂ = some v₂ ∧ (c₃ = '='
        ∧ key = [UInt8.ofNat (v₀ * 4 + v₁ / 16), UInt8.ofNat (v₁ % 16 * 16 + v₂ / 4)]
      ∨ ∃ v₃ out, b64Value c₃ = some v₃ ∧ b64Groups t = some out
        ∧ key = UInt8.ofNat (v₀ * 4 + v₁ / 16) :: UInt8.ofNat (v₁ % 16 * 16 + v₂ / 4)
          :: UInt8.ofNat (v₂ % 4 * 64 + v₃) :: out)) := by
  rcases h₀ : b64Value c₀ with _ | v₀
  · simp [b64Groups, h₀] at h
  rcases h₁ : b64Value c₁ with _ | v₁
  · simp [b64Groups, h₀, h₁] at h
  refine ⟨v₀, v₁, rfl, rfl, ?_⟩
  by_cases hc₂ : c₂ = '='
  · simp only [b64Groups, h₀, h₁, hc₂, if_true, Option.bind_eq_bind, Option.bind_some,
      Option.pure_def, Option.some.injEq] at h
    exact .inl (h ▸ rfl)
  rcases h₂ : b64Value c₂ with _ | v₂
  · simp [b64Groups, h₀, h₁, h₂, hc₂] at h
  refine .inr ⟨v₂, rfl, ?_⟩
  by_cases hc₃ : c₃ = '='
  · subst hc₃
    rw [b64Groups_pair t h₀ h₁ h₂, Option.some.injEq] at h
    exact .inl ⟨rfl, h.symm⟩
  rcases h₃ : b64Value c₃ with _ | v₃
  · simp [b64Groups, h₀, h₁, h₂, h₃, hc₂, hc₃] at h
  rw [b64Groups_cons t h₀ h₁ h₂ h₃] at h
  obtain ⟨out, hout, rfl⟩ := Option.map_eq_some_iff.mp h
  exact .inr ⟨v₃, out, rfl, hout, rfl⟩

theorem bytes_sextets {v₀ v₁ v₂ : ℕ} (h₀ : v₀ < 64) (h₁ : v₁ < 64) (h₂ : v₂ < 64) :
    (UInt8.ofNat (v₀ * 4 + v₁ / 16)).toNat = v₀ * 4 + v₁ / 16
      ∧ (UInt8.ofNat (v₁ % 16 * 16 + v₂ / 4)).toNat = v₁ % 16 * 16 + v₂ / 4 :=
  ⟨UInt8.toNat_ofNat_of_lt' (by simp only [UInt8.size]; omega),
    UInt8.toNat_ofNat_of_lt' (by simp only [UInt8.size]; omega)⟩

/-- What is printed for the key of a text: the text, less the two low bits of its last sextet. -/
theorem b64Encode_b64Groups : ∀ (n : ℕ) (t : Text) (key : Bytes), t.length = 4 * n + 4 →
    b64Groups t = some key → key.length = 3 * n + 2 →
    ∃ v, b64Value (t.getD (4 * n + 2) '=') = some v
      ∧ b64Encode key = t.set (4 * n + 2) (b64Char (v / 4 * 4))
  | n, c₀ :: c₁ :: c₂ :: c₃ :: t, key, ht, h, hk => by
    simp only [List.length_cons] at ht
    obtain ⟨v₀, v₁, h₀, h₁, hone | ⟨v₂, h₂, ⟨rfl, rfl⟩ | ⟨v₃, out, h₃, hout, rfl⟩⟩⟩ :=
      b64Groups_some h
    · omega
    · simp only [List.length_cons, List.length_nil] at hk
      obtain rfl : n = 0 := by omega
      obtain rfl : t = [] := List.eq_nil_of_length_eq_zero (by omega)
      obtain ⟨l₀, e₀⟩ := b64Value_some h₀
      obtain ⟨l₁, e₁⟩ := b64Value_some h₁
      obtain ⟨b₀, b₁⟩ := bytes_sextets l₀ l₁ (b64Value_some h₂).1
      have a₀ : (v₀ * 4 + v₁ / 16) / 4 = v₀ := by omega
      have a₁ : (v₀ * 4 + v₁ / 16) % 4 * 16 + (v₁ % 16 * 16 + v₂ / 4) / 16 = v₁ := by
        have := (b64Value_some h₂).1
        omega
      have a₂ : (v₁ % 16 * 16 + v₂ / 4) % 16 * 4 = v₂ / 4 * 4 := by
        have := (b64Value_some h₂).1
        omega
      refine ⟨v₂, h₂, ?_⟩
      rw [b64Encode_pair, b₀, b₁, a₀, a₁, a₂, e₀, e₁]
      rfl
    · simp only [List.length_cons] at hk
      obtain ⟨n, rfl⟩ : ∃ m, n = m + 1 := ⟨n - 1, by omega⟩
      obtain ⟨l₀, e₀⟩ := b64Value_some h₀
      obtain ⟨l₁, e₁⟩ := b64Value_some h₁
      obtain ⟨l₂, e₂⟩ := b64Value_some h₂
      obtain ⟨l₃, e₃⟩ := b64Value_some h₃
      obtain ⟨v, hv, ih⟩ := b64Encode_b64Groups n t out (by omega) hout (by omega)
      obtain ⟨b₀, b₁⟩ := bytes_sextets l₀ l₁ l₂
      have b₂ : (UInt8.ofNat (v₂ % 4 * 64 + v₃)).toNat = v₂ % 4 * 64 + v₃ :=
        UInt8.toNat_ofNat_of_lt' (by simp only [UInt8.size]; omega)
      have a₀ : (v₀ * 4 + v₁ / 16) / 4 = v₀ := by omega
      have a₁ : (v₀ * 4 + v₁ / 16) % 4 * 16 + (v₁ % 16 * 16 + v₂ / 4) / 16 = v₁ := by omega
      have a₂ : (v₁ % 16 * 16 + v₂ / 4) % 16 * 4 + (v₂ % 4 * 64 + v₃) / 64 = v₂ := by omega
      have a₃ : (v₂ % 4 * 64 + v₃) % 64 = v₃ := by omega
      refine ⟨v, hv, ?_⟩
      rw [b64Encode_cons, b₀, b₁, b₂, a₀, a₁, a₂, a₃, e₀, e₁, e₂, e₃, ih]
      rfl

/-- The two bits of a 44-character text that are in no key are zero. -/
def SpareBitsZero (t : Text) : Prop := ∀ v, b64Value (t.getD 42 '=') = some v → v % 4 = 0

instance (t : Text) : Decidable (SpareBitsZero t) :=
  decidable_of_iff ((b64Value (t.getD 42 '=')).all fun v => v % 4 = 0) (by
    simp [SpareBitsZero, Option.all_eq_true])

theorem decodeBase64_some {t : Text} {key : Bytes} (h : decodeBase64 t = some key) :
    t.length = 44 ∧ b64Groups t = some key ∧ key.length = 32 := by
  unfold decodeBase64 at h
  split at h
  · cases h
  · next ht =>
    obtain ⟨out, hout, hlen⟩ := Option.bind_eq_some_iff.mp h
    obtain ⟨hk, he⟩ := Option.ite_none_left_eq_some.mp hlen
    obtain rfl := Option.some.inj he
    exact ⟨not_not.mp ht, hout, not_not.mp hk⟩

/-- Every key is read back from its text, and a text that is read is the text of its key exactly
when its spare bits are zero. -/
theorem base64_codec (key : Bytes) (t : Text) :
    (key.length = 32 → decodeBase64 (b64Encode key) = some key)
      ∧ ∀ k, decodeBase64 t = some k → (b64Encode k = t ↔ SpareBitsZero t) := by
  refine ⟨fun hk => ?_, fun k h => ?_⟩
  · have hlen := length_b64Encode 10 key hk
    rw [decodeBase64, if_neg (not_not.mpr hlen), b64Groups_b64Encode 10 key hk, Option.bind_some,
      if_neg (not_not.mpr hk)]
  · obtain ⟨ht, hgroups, hk⟩ := decodeBase64_some h
    obtain ⟨v, hv, henc⟩ := b64Encode_b64Groups 10 t k ht hgroups hk
    obtain ⟨hlt, hchar⟩ := b64Value_some hv
    have h42 : 42 < t.length := by omega
    have hget : t.getD 42 '=' = t[42] := List.getD_eq_getElem _ _ h42
    rw [henc]
    constructor
    · intro hsame w hw
      obtain rfl : v = w := Option.some.inj (hv.symm.trans hw)
      have hlast := congrArg (·.getD 42 '=') hsame
      simp only [List.getD_eq_getElem?_getD, List.getElem?_set_self h42, Option.getD_some] at hlast
      rw [← List.getD_eq_getElem?_getD, ← hchar] at hlast
      have heven := b64Value_b64Char (v / 4 * 4) (by omega)
      rw [hlast, b64Value_b64Char v hlt, Option.some.injEq] at heven
      omega
    · intro hzero
      have hv4 : v / 4 * 4 = v := by
        have := hzero v hv
        omega
      rw [hv4, hchar, hget]
      exact List.set_getElem_self _

/-- The text of the key of zeros, with the last two bits given. -/
def zeroText (c : Char) : Text := List.replicate 42 'A' ++ [c, '=']

theorem zeroText_read : decodeBase64 (zeroText 'A') = some (zeros 32)
    ∧ decodeBase64 (zeroText 'B') = some (zeros 32) := by
  decide +kernel

theorem base64_codec_zero : decodeBase64 (b64Encode (zeros 32)) = some (zeros 32)
    ∧ b64Encode (zeros 32) = zeroText 'A' :=
  ⟨(base64_codec (zeros 32) []).1 rfl,
    ((base64_codec [] (zeroText 'A')).2 _ zeroText_read.1).mpr (by decide)⟩

/-- Two texts are read as one key, so one of them is not the text of it. -/
theorem base64_not_injective : ¬ ((∀ key : Bytes, key.length = 32 →
    decodeBase64 (b64Encode key) = some key)
      ∧ ∀ t key, decodeBase64 t = some key → b64Encode key = t) := fun h => by
  have ha := h.2 _ _ zeroText_read.1
  have hb := h.2 _ _ zeroText_read.2
  exact absurd (ha.symm.trans hb) (by decide)

end PolarWG
