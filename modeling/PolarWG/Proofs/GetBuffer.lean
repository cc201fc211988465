import PolarWG.GetBuffer

/-!
# The sizing contract

However large the buffer, the calls append one text. The cursor is where that text ends or at the
last byte, whichever comes first, and the capacity is what is left from there.
-/

namespace PolarWG

variable {ntop : ℕ → Bytes → Text}

/-! ## Memory -/

theorem Memory.write_outside {mem : Memory} {off a : ℕ} {t : Text}
    (h : a < off ∨ off + t.length ≤ a) : mem.write off t a = mem a :=
  if_neg (by omega)

theorem Memory.write_inside (mem : Memory) (off i : ℕ) (t : Text) (h : i < t.length) :
    mem.write off t (off + i) = t[i] := by
  rw [Memory.write, if_pos (by omega), Nat.add_sub_cancel_left, List.getD_eq_getElem _ _ h]

/-- After `t` is appended to a buffer of `len` bytes over the memory `old`. -/
structure Holds (old : Memory) (len : ℕ) (t : Text) (b : Appended) : Prop where
  off : b.off = min (len - 1) t.length
  cap : b.off + b.cap = len
  written : b.written = t.length
  text : ∀ i (h : i < t.length), i < len - 1 → b.mem i = t[i]
  outside : ∀ i, len ≤ i → b.mem i = old i

theorem Holds.start (old : Memory) (len : ℕ) : Holds old len [] ⟨old, 0, len, 0⟩ :=
  ⟨by simp, by simp, rfl, fun i h => absurd h (Nat.not_lt_zero i), fun _ _ => rfl⟩

theorem Holds.append {old : Memory} {len : ℕ} {t : Text} {b : Appended} (h : Holds old len t b)
    (u : Text) : Holds old len (t ++ u) (appendFmt b u) := by
  obtain ⟨hoff, hcap, hwritten, htext, hout⟩ := h
  have hmem : ∀ i (hi : i < (t ++ u).length), i < len - 1 →
      vsnprintf b.mem b.off b.cap u i = (t ++ u)[i] := by
    intro i hi hlast
    unfold vsnprintf
    rw [if_pos (by omega)]
    rw [List.length_append] at hi
    by_cases hold : i < t.length
    · rw [Memory.write_outside (.inl (by omega)), htext i hold hlast, List.getElem_append_left hold]
    · obtain ⟨j, rfl⟩ := Nat.exists_eq_add_of_le (show b.off ≤ i by omega)
      have hj : j < (u.take (b.cap - 1)).length := by
        rw [List.length_take]
        omega
      rw [Memory.write_inside _ _ _ _ (by rw [List.length_append]; omega),
        List.getElem_append_left hj, List.getElem_take, List.getElem_append_right (by omega)]
      congr 1
      omega
  have hbeyond : ∀ i, len ≤ i → vsnprintf b.mem b.off b.cap u i = old i := by
    intro i hi
    unfold vsnprintf
    split
    · rw [Memory.write_outside (.inr (by
        rw [List.length_append, List.length_take, List.length_singleton]
        omega)), hout i hi]
    · exact hout i hi
  unfold appendFmt
  simp only []
  split
  · exact ⟨by simp only [List.length_append]; omega, by simp only []; omega,
      by simp only [List.length_append]; omega, hmem, hbeyond⟩
  split
  · exact ⟨by simp only [List.length_append]; omega, by simp only []; omega,
      by simp only [List.length_append]; omega, hmem, hbeyond⟩
  · exact ⟨by simp only [List.length_append]; omega, by simp only []; omega,
      by simp only [List.length_append]; omega, hmem, hbeyond⟩

theorem Holds.appends {old : Memory} {len : ℕ} : ∀ (us : List Text) {t : Text} {b : Appended},
    Holds old len t b → Holds old len (t ++ us.flatten) (us.foldl appendFmt b)
  | [], t, b, h => by
    rw [List.flatten_nil, List.append_nil]
    exact h
  | u :: us, t, b, h => by
    have := (h.append u).appends us
    rw [List.append_assoc] at this
    exact this

/-! ## The calls -/

theorem flatten_uapiCall (t : Text) : (uapiCall t).flatten = t := by
  unfold uapiCall
  split
  · next h => rw [h, List.flatten_nil]
  · rw [List.flatten_singleton]

theorem flatten_uapiPeerCalls (peer : WgsPeer) :
    (uapiPeerCalls ntop peer).flatten = uapiPeer ntop peer := by
  have hallowed : (peer.allowed.flatMap fun c => uapiCall (uapiAllowed ntop c)).flatten
      = peer.allowed.flatMap (uapiAllowed ntop) := by
    rw [List.flatMap_def, List.flatten_flatten, List.map_map, List.flatMap_def]
    congr 1
    exact List.map_congr_left fun c _ => flatten_uapiCall _
  unfold uapiPeerCalls uapiPeer
  simp only [List.flatten_append, flatten_uapiCall, hallowed, List.flatten_cons, List.flatten_nil,
    List.append_nil, List.append_assoc]

/-- What the calls append is what is read out. -/
theorem flatten_uapiCalls (s : WgSession) :
    (uapiCalls ntop s).flatten = wgSessionGetUapi ntop s := by
  have hpeers : ((List.range s.nPeers).flatMap
      (fun i => if (s.peers i).active then uapiPeerCalls ntop (s.peers i) else [])).flatten
      = (List.range s.nPeers).flatMap
        fun i => if (s.peers i).active then uapiPeer ntop (s.peers i) else [] := by
    rw [List.flatMap_def, List.flatten_flatten, List.map_map, List.flatMap_def]
    congr 1
    refine List.map_congr_left fun i _ => ?_
    rw [Function.comp_apply]
    split
    · exact flatten_uapiPeerCalls _
    · rfl
  unfold uapiCalls wgSessionGetUapi uapiDevice uapiPeers
  simp only [List.flatten_append, hpeers, List.flatten_cons, List.flatten_nil, List.append_nil,
    List.append_assoc]

/-! ## The contract -/

def Memory.read (mem : Memory) (len : ℕ) : Text := (List.range len).map mem

/-- A call with a buffer of `bufLen` bytes returns the length of `t`, writes in the buffer only, and
leaves as much of `t` there as fits, and a NUL. -/
structure Sized (t : Text) (mem : Memory) (bufLen : ℕ) (result : ℕ × Memory) : Prop where
  returned : result.1 = t.length
  outside : ∀ a, bufLen ≤ a → result.2 a = mem a
  text : 0 < bufLen → result.2.read (min (bufLen - 1) t.length) = t.take (bufLen - 1)
  terminated : 0 < bufLen → result.2 (min (bufLen - 1) t.length) = nul

theorem Memory.read_eq_take {mem : Memory} {n : ℕ} {t : Text}
    (h : ∀ i (hi : i < t.length), i < n → mem i = t[i]) :
    mem.read (min n t.length) = t.take n := by
  refine List.ext_getElem (by simp [Memory.read]) fun i h1 h2 => ?_
  simp only [Memory.read, List.length_map, List.length_range] at h1
  simp only [Memory.read, List.getElem_map, List.getElem_range, List.getElem_take]
  exact h i (by omega) (by omega)

theorem Holds.sized {mem : Memory} {bufLen : ℕ} {t : Text} {b : Appended}
    (h : Holds mem bufLen t b) : Sized t mem bufLen (b.written, if 0 < bufLen then
      b.mem.write (if bufLen - 1 < b.written then bufLen - 1 else b.written) [nul] else b.mem) := by
  obtain ⟨-, -, hwritten, htext, hout⟩ := h
  have hlast : (if bufLen - 1 < b.written then bufLen - 1 else b.written)
      = min (bufLen - 1) t.length := by
    rw [hwritten]
    split <;> omega
  rw [hlast]
  refine ⟨hwritten, fun a ha => ?_, fun hpos => ?_, fun hpos => ?_⟩
  · simp only []
    split
    · rw [Memory.write_outside (.inr (by rw [List.length_singleton]; omega)), hout a ha]
    · exact hout a ha
  · rw [if_pos hpos]
    refine Memory.read_eq_take fun i hi hlast => ?_
    exact (Memory.write_outside (.inl (by omega))).trans (htext i hi hlast)
  · simp only [if_pos hpos]
    exact Memory.write_inside _ _ 0 [nul] (Nat.zero_lt_one)

/-- Every session has one text that calls with any buffer return the length of and leave the start
of; a buffer of that length and one more gets all of it. -/
theorem get_uapi_sizing (ntop : ℕ → Bytes → Text) (s : WgSession) :
    (∀ mem bufLen, Sized (wgSessionGetUapi ntop s) mem bufLen
        (wgSessionGetUapiInto ntop s mem bufLen))
      ∧ ∀ mem mem', (wgSessionGetUapiInto ntop s mem'
          ((wgSessionGetUapiInto ntop s mem 0).1 + 1)).2.read (wgSessionGetUapiInto ntop s mem 0).1
        = wgSessionGetUapi ntop s := by
  have hsized : ∀ mem bufLen, Sized (wgSessionGetUapi ntop s) mem bufLen
      (wgSessionGetUapiInto ntop s mem bufLen) := fun mem bufLen => by
    have h := (Holds.start mem bufLen).appends (uapiCalls ntop s)
    rw [List.nil_append, flatten_uapiCalls] at h
    exact h.sized
  refine ⟨hsized, fun mem mem' => ?_⟩
  have hlen := (hsized mem 0).returned
  have htext := (hsized mem' ((wgSessionGetUapiInto ntop s mem 0).1 + 1)).text (Nat.succ_pos _)
  rw [hlen] at htext ⊢
  rw [Nat.add_sub_cancel, min_self, List.take_length] at htext
  exact htext

end PolarWG
