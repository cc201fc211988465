import PolarWG.Proofs.Configured
import PolarWG.Get

/-!
# Texts that are read back

What the C string functions make of a text without blanks, and how a request made of fields is
read: field by field.
-/

namespace PolarWG

variable {p : Prims} {s s' s'' : WgSession}

/-! ## Plain texts -/

/-- A character that no trimming, no line break and no end of string cuts at. -/
def plainChar (c : Char) : Bool := ¬ isTrimmed c ∧ c ≠ Char.ofNat 0

/-- A text that is one word. -/
def Plain (t : Text) : Prop := ∀ c ∈ t, plainChar c

theorem Plain.append {t u : Text} (ht : Plain t) (hu : Plain u) : Plain (t ++ u) := fun c hc =>
  (List.mem_append.mp hc).elim (ht c) (hu c)

theorem Plain.cons {c : Char} {t : Text} (hc : plainChar c) (ht : Plain t) : Plain (c :: t) :=
  List.forall_mem_cons.mpr ⟨hc, ht⟩

theorem Plain.newline {t : Text} (h : Plain t) : '\n' ∉ t := fun hn => by
  have := h _ hn
  simp [plainChar, isTrimmed] at this

theorem Plain.trim {t : Text} (h : Plain t) : wgsTrim t = t := by
  have hdrop : ∀ u : Text, Plain u → u.dropWhile isTrimmed = u := by
    intro u hu
    cases u with
    | nil => rfl
    | cons c u =>
      have hc := hu c List.mem_cons_self
      simp only [plainChar, Bool.decide_and, Bool.and_eq_true, decide_eq_true_eq] at hc
      rw [List.dropWhile_cons_of_neg (by simpa using hc.1)]
  unfold wgsTrim
  rw [hdrop t h, hdrop _ fun c hc => h c (List.mem_reverse.mp hc), List.reverse_reverse]

theorem Plain.cstr {t : Text} (h : ∀ c ∈ t, plainChar c ∨ c = '\n') : cstr t = t := by
  refine List.takeWhile_eq_self_iff.mpr fun c hc => ?_
  rcases h c hc with hc | rfl
  · simp only [plainChar, Bool.decide_and, Bool.and_eq_true, decide_eq_true_eq] at hc
    exact decide_eq_true hc.2
  · decide

theorem strchr_append {c : Char} {t u : Text} (h : c ∉ t) : strchr c (t ++ c :: u) = some (t, u) := by
  have ht : ∀ d ∈ t, decide (d ≠ c) = true := fun d hd => decide_eq_true fun e => h (e ▸ hd)
  unfold strchr
  rw [if_pos (by simp), List.takeWhile_append_of_pos ht, List.dropWhile_append_of_pos ht]
  simp

theorem strrchr_append {c : Char} {t u : Text} (h : c ∉ u) :
    strrchr c (t ++ c :: u) = some (t, u) := by
  have : (t ++ c :: u).reverse = u.reverse ++ c :: t.reverse := by simp
  unfold strrchr
  rw [this, strchr_append (by simpa using h)]
  simp

theorem strtok_append {c : Char} (t u : Text) :
    strtok c (t ++ c :: u) = strtok c t ++ strtok c u := by
  unfold strtok
  rw [List.splitOn_append_cons_self, List.filter_append]

theorem strtok_word {c : Char} {t : Text} (h : c ∉ t) (hne : t ≠ []) : strtok c t = [t] := by
  unfold strtok
  rw [List.splitOn_eq_singleton h, List.filter_singleton]
  simp [hne]

/-! ## Numbers -/

/-- What stays clear of the punctuation and the blanks of the formats. -/
theorem isDigit_bounds {c : Char} (h : c.isDigit = true) : 48 ≤ c.toNat ∧ c.toNat ≤ 57 := by
  simp only [Char.isDigit, Bool.and_eq_true, decide_eq_true_eq, ge_iff_le, UInt32.le_iff_toNat_le] at h
  exact h

theorem plainChar_of_bounds {c : Char} (h : 33 ≤ c.toNat) : plainChar c := by
  simp only [plainChar, isTrimmed, Bool.decide_and, Bool.and_eq_true, decide_eq_true_eq]
  refine ⟨?_, ?_⟩
  · rintro (rfl | rfl | rfl | rfl) <;> simp at h
  · rintro rfl
    simp at h

theorem isDigit_of_mem_fmtUnsigned {n : ℕ} {c : Char} (h : c ∈ fmtUnsigned n) : c.isDigit = true :=
  Nat.isDigit_of_mem_toDigits (by decide) (by decide) h

theorem plain_fmtUnsigned (n : ℕ) : Plain (fmtUnsigned n) := fun c hc =>
  plainChar_of_bounds (by have := isDigit_bounds (isDigit_of_mem_fmtUnsigned hc); omega)

theorem plain_fmtSigned (n : ℤ) : Plain (fmtSigned n) := by
  cases n with
  | ofNat n => exact plain_fmtUnsigned n
  | negSucc n => exact .cons (by decide) (plain_fmtUnsigned _)

theorem not_mem_fmtUnsigned {n : ℕ} {c : Char} (h : c.isDigit = false) : c ∉ fmtUnsigned n :=
  fun hc => by simp [isDigit_of_mem_fmtUnsigned hc] at h

theorem digitsNat_fmtUnsigned (n : ℕ) : digitsNat (fmtUnsigned n) = n := by
  unfold digitsNat
  rw [List.takeWhile_eq_self_iff.mpr fun c hc => isDigit_of_mem_fmtUnsigned hc]
  exact Nat.ofDigitChars_ten_toDigits

theorem strtol_digits {t : Text} (hne : t ≠ []) (hd : ∀ c ∈ t, c.isDigit = true)
    (h : digitsNat t < 2 ^ 63) : strtol t = digitsNat t := by
  obtain ⟨c, u, rfl⟩ := List.exists_cons_of_ne_nil hne
  have hc := isDigit_bounds (hd c List.mem_cons_self)
  have hspace : ¬ isSpace c = true := by
    simp only [isSpace, Bool.decide_or, Bool.decide_and, Bool.or_eq_true, Bool.and_eq_true,
      decide_eq_true_eq, not_or, not_and]
    refine ⟨?_, fun _ => by omega⟩
    rintro rfl
    simp at hc
  unfold strtol
  rw [List.dropWhile_cons_of_neg hspace]
  split
  · next e =>
    obtain rfl := (List.cons.inj e).1
    simp at hc
  · next e =>
    obtain rfl := (List.cons.inj e).1
    simp at hc
  · omega

theorem atoi_digits {t : Text} (hne : t ≠ []) (hd : ∀ c ∈ t, c.isDigit = true)
    (h : digitsNat t < 2 ^ 31) : atoi t = digitsNat t := by
  rw [atoi, strtol_digits hne hd (by omega)]
  exact Int.bmod_eq_of_le (by omega) (by omega)

theorem strtol_fmtUnsigned {n : ℕ} (h : n < 2 ^ 63) : strtol (fmtUnsigned n) = n := by
  have hdig := digitsNat_fmtUnsigned n
  have hne : fmtUnsigned n ≠ [] := Nat.toDigits_ne_nil
  rw [strtol_digits hne (fun c => isDigit_of_mem_fmtUnsigned) (hdig.symm ▸ h), hdig]

theorem atoi_fmtUnsigned {n : ℕ} (h : n < 2 ^ 31) : atoi (fmtUnsigned n) = n := by
  have hdig := digitsNat_fmtUnsigned n
  have hne : fmtUnsigned n ≠ [] := Nat.toDigits_ne_nil
  rw [atoi_digits hne (fun c => isDigit_of_mem_fmtUnsigned) (hdig.symm ▸ h), hdig]

/-! ## Hexadecimal -/

theorem hexValue_hexDigit : ∀ n < 16, hexValue (hexDigit n) = some n := by decide

theorem hexDigit_bounds : ∀ n < 16, 48 ≤ (hexDigit n).toNat ∧ (hexDigit n).toNat ≤ 102 := by decide

theorem byte_nibbles (b : UInt8) :
    b.toNat >>> 4 < 16 ∧ b.toNat &&& 0xf < 16
      ∧ UInt8.ofNat ((b.toNat >>> 4) <<< 4 ||| (b.toNat &&& 0xf)) = b := by
  have h : ∀ n < 256, n >>> 4 < 16 ∧ n &&& 0xf < 16 ∧ (n >>> 4) <<< 4 ||| (n &&& 0xf) = n := by
    decide +kernel
  obtain ⟨h1, h2, h3⟩ := h b.toNat b.toNat_lt
  exact ⟨h1, h2, by rw [h3, UInt8.ofNat_toNat]⟩

theorem length_hexEncode : ∀ bs : Bytes, (hexEncode bs).length = 2 * bs.length
  | [] => rfl
  | b :: bs => by
    have ih := length_hexEncode bs
    unfold hexEncode at ih ⊢
    rw [List.flatMap_cons, List.length_append, ih, List.length_cons]
    simp
    omega

theorem hexPairs_hexEncode : ∀ bs : Bytes, hexPairs (hexEncode bs) = some bs
  | [] => rfl
  | b :: bs => by
    obtain ⟨h1, h2, h3⟩ := byte_nibbles b
    have ih := hexPairs_hexEncode bs
    unfold hexEncode at ih ⊢
    simp only [List.flatMap_cons, List.cons_append, List.nil_append, hexPairs,
      hexValue_hexDigit _ h1, hexValue_hexDigit _ h2, ih, Option.bind_eq_bind, Option.bind_some,
      Option.pure_def, h3]

theorem hexDecode_hexEncode {bs : Bytes} {n : ℕ} (h : bs.length = n) :
    hexDecode (hexEncode bs) n = some bs := by
  unfold hexDecode
  rw [length_hexEncode, h, if_neg (by simp), hexPairs_hexEncode]

theorem hexEncode_bounds {bs : Bytes} {c : Char} (h : c ∈ hexEncode bs) :
    48 ≤ c.toNat ∧ c.toNat ≤ 102 := by
  obtain ⟨b, -, hc⟩ := List.mem_flatMap.mp h
  obtain ⟨h1, h2, -⟩ := byte_nibbles b
  rcases List.mem_pair.mp hc with rfl | rfl
  · exact hexDigit_bounds _ h1
  · exact hexDigit_bounds _ h2

theorem plain_hexEncode (bs : Bytes) : Plain (hexEncode bs) := fun _ hc =>
  plainChar_of_bounds (by have := hexEncode_bounds hc; omega)

/-! ## Requests field by field -/

/-- A request that begins with `text` goes on in `s'` once it is read. -/
def Reads (p : Prims) (resolve : Resolver) (s : WgSession) (cur : Option ℕ) (text : Text)
    (s' : WgSession) (cur' : Option ℕ) : Prop :=
  ∀ rest, setLines p resolve (strtok '\n' (text ++ rest)) s cur
    = setLines p resolve (strtok '\n' rest) s' cur'

/-- A request that begins with `text` fails. -/
def Stops (p : Prims) (resolve : Resolver) (s : WgSession) (cur : Option ℕ) (text : Text) : Prop :=
  ∀ rest, (setLines p resolve (strtok '\n' (text ++ rest)) s cur).1 = -1

variable {resolve : Resolver} {cur cur' cur'' : Option ℕ} {text text' : Text}

theorem Reads.nil : Reads p resolve s cur [] s cur := fun _ => rfl

theorem Reads.append (h : Reads p resolve s cur text s' cur')
    (h' : Reads p resolve s' cur' text' s'' cur'') :
    Reads p resolve s cur (text ++ text') s'' cur'' := fun rest => by
  rw [List.append_assoc, h, h']

theorem Reads.stops (h : Reads p resolve s cur text s' cur')
    (h' : Stops p resolve s' cur' text') : Stops p resolve s cur (text ++ text') := fun rest => by
  rw [List.append_assoc, h, h']

theorem Stops.append (h : Stops p resolve s cur text) (text' : Text) :
    Stops p resolve s cur (text ++ text') := fun rest => by
  rw [List.append_assoc, h]

/-- What a field may be made of: a key without `=`, and a value of one word. -/
structure FieldText (key val : Text) : Prop where
  plainKey : Plain key
  name : key ≠ []
  equals : '=' ∉ key
  plainVal : Plain val

theorem FieldText.uapiLine {key val : Text} (h : FieldText key val) :
    uapiLine (key ++ '=' :: val) = some (key, val) := by
  have hplain : Plain (key ++ '=' :: val) := h.plainKey.append (.cons (by decide) h.plainVal)
  unfold PolarWG.uapiLine
  rw [hplain.trim]
  split
  · next e => simp at e
  · next e =>
    simp only [strchr_append h.equals, Option.map_some, h.plainKey.trim, h.plainVal.trim]

theorem setLines_cons (resolve : Resolver) (line : Text) (lines : List Text) (cur : Option ℕ) :
    setLines p resolve (line :: lines) s cur
      = match setLine p resolve s cur line with
        | .fail s => (-1, s)
        | .next s cur => setLines p resolve lines s cur := rfl

theorem setLines_field {key val : Text} (h : FieldText key val) (rest : Text) :
    setLines p resolve (strtok '\n' (uapiField key val ++ rest)) s cur
      = match setKey p resolve s cur key val with
        | .fail s => (-1, s)
        | .next s cur => setLines p resolve (strtok '\n' rest) s cur := by
  have hplain : Plain (key ++ '=' :: val) := h.plainKey.append (.cons (by decide) h.plainVal)
  have htext : uapiField key val ++ rest = (key ++ '=' :: val) ++ '\n' :: rest := by
    simp [uapiField]
  have hline : setLine p resolve s cur (key ++ '=' :: val) = setKey p resolve s cur key val := by
    unfold setLine
    rw [h.uapiLine]
  rw [htext, strtok_append, strtok_word hplain.newline (by simp), List.singleton_append, ← hline]
  exact setLines_cons _ _ _ _

theorem reads_field {key val : Text} (h : FieldText key val)
    (hs : setKey p resolve s cur key val = .next s' cur') :
    Reads p resolve s cur (uapiField key val) s' cur' := fun rest => by
  rw [setLines_field h, hs]

theorem stops_field {key val : Text} (s' : WgSession) (h : FieldText key val)
    (hs : setKey p resolve s cur key val = .fail s') :
    Stops p resolve s cur (uapiField key val) := fun rest => by
  rw [setLines_field h, hs]

end PolarWG
