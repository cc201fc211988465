import PolarWG.Proofs.Frame
import PolarWG.Proofs.Restore
import PolarWG.Proofs.Routes

/-!
# Removing a peer that is not there

The key of the peer to remove is looked up as any other, and a key that is not there is added: a
slot is taken and emptied again. That leaves nothing behind but a blank slot, if there was a slot
to take.
-/

namespace PolarWG

open Specimen

variable {p : Prims} {s s' : WgSession} {ntop : ℕ → Bytes → Text}

/-- The request that removes the peer with the key that `hex` is the text of. -/
def removeText (hex : Text) : Text :=
  uapiField "public_key".toList hex ++ uapiField "remove".toList "true".toList

/-- The peers in use, what the tries find and what is read out. -/
structure Unmoved (ntop : ℕ → Bytes → Text) (s s' : WgSession) : Prop where
  peers : ∀ i, (s.peers i).active ∨ (s'.peers i).active → s'.peers i = s.peers i
  v4 : ∀ addr : Bytes, addr.length = 4 → aipsLookup s'.aipsV4 addr = aipsLookup s.aipsV4 addr
  v6 : ∀ addr : Bytes, addr.length = 16 → aipsLookup s'.aipsV6 addr = aipsLookup s.aipsV6 addr
  uapi : wgSessionGetUapi ntop s' = wgSessionGetUapi ntop s

/-! ## Slots not in use -/

/-- What is gathered from the slots in use, when only others changed. -/
theorem flatMap_kept {α : Type*} {g : WgsPeer → ℕ → List α} (s s' : WgSession)
    (hg : ∀ peer i, ¬ peer.active → g peer i = [])
    (hpeers : ∀ i, (s.peers i).active ∨ (s'.peers i).active → s'.peers i = s.peers i)
    (hn : s.nPeers ≤ s'.nPeers) (hout : ∀ i, (s.peers i).active → i < s.nPeers) :
    (List.range s'.nPeers).flatMap (fun i => g (s'.peers i) i)
      = (List.range s.nPeers).flatMap fun i => g (s.peers i) i := by
  have hsame : ∀ i, g (s'.peers i) i = g (s.peers i) i := fun i => by
    by_cases ha : (s.peers i).active ∨ (s'.peers i).active
    · rw [hpeers i ha]
    · obtain ⟨h1, h2⟩ := not_or.mp ha
      rw [hg _ i h1, hg _ i h2]
  obtain ⟨k, hk⟩ := Nat.exists_eq_add_of_le hn
  rw [hk]
  clear hk
  induction k with
  | zero => exact congrArg (List.flatMap · _) (funext hsame)
  | succ k ih =>
    have hlast : g (s'.peers (s.nPeers + k)) (s.nPeers + k) = [] := by
      rw [hsame]
      refine hg _ _ fun ha => ?_
      have := hout _ ha
      omega
    rw [← Nat.add_assoc, List.range_succ, List.flatMap_append, ih, List.flatMap_singleton, hlast,
      List.append_nil]

theorem unmoved_of_kept (ntop : ℕ → Bytes → Text) (hs : RoutesMatch s) (hs' : RoutesMatch s')
    (hkept : ∀ i, (s.peers i).active ∨ (s'.peers i).active → s'.peers i = s.peers i)
    (hn : s.nPeers ≤ s'.nPeers) (hout : ∀ i, (s.peers i).active → i < s.nPeers)
    (hport : s'.listenPort = s.listenPort) : Unmoved ntop s s' := by
  have hentries : activeEntries s' = activeEntries s :=
    flatMap_kept s s' (g := fun peer i => if peer.active then peer.allowed.map (·, i) else [])
      (fun _ _ ha => if_neg ha) hkept hn hout
  have hfields := flatMap_kept s s'
    (g := fun peer _ => if peer.active then uapiPeer ntop peer else [])
    (fun _ _ ha => if_neg ha) hkept hn hout
  refine ⟨hkept, fun addr ha => ?_, fun addr ha => ?_, ?_⟩
  · rw [hs'.v4 addr ha, hentries, hs.v4 addr ha]
  · rw [hs'.v6 addr ha, hentries, hs.v6 addr ha]
  · unfold wgSessionGetUapi uapiDevice uapiPeers
    rw [hfields, hport]

/-- A slot can be had unless every one is in use. -/
theorem allocPeerSlot_eq_none (h : Accounted p s) :
    (allocPeerSlot s).2 = none ↔ ∀ i < wgsMaxPeers, (s.peers i).active := by
  unfold allocPeerSlot
  split
  · next i hi =>
    have hfree := List.find?_some hi
    have hlt := List.mem_range.mp (List.mem_of_find?_eq_some hi)
    refine ⟨fun hn => (Option.some_ne_none i hn).elim, fun hall => ?_⟩
    simp [hall i (hlt.trans_le h.small)] at hfree
  · next hnone =>
    rw [List.find?_eq_none] at hnone
    split
    · next hfull =>
      refine ⟨fun _ i hi => ?_, fun _ => rfl⟩
      simpa using hnone i (List.mem_range.mpr (hi.trans_le hfull))
    · next hroom =>
      refine ⟨fun hn => (Option.some_ne_none _ hn).elim, fun hall => ?_⟩
      exact absurd (h.range _ (hall s.nPeers (Nat.not_le.mp hroom))) (lt_irrefl _)

theorem hexValue_bounds {c : Char} {n : ℕ} (h : hexValue c = some n) : 33 ≤ c.toNat := by
  unfold hexValue at h
  simp only [Char.le_def, UInt32.le_iff_toNat_le] at h
  split at h
  · next hc => exact le_trans (by decide) hc.1
  split at h
  · next hc => exact le_trans (by decide) hc.1
  split at h
  · next hc => exact le_trans (by decide) hc.1
  · cases h

theorem plain_of_hexPairs : ∀ {n : ℕ} {t : Text} {b : Bytes}, t.length = 2 * n →
    hexPairs t = some b → Plain t
  | 0, t, _, hl, _ => by
    rw [List.eq_nil_of_length_eq_zero hl]
    exact fun c hc => by cases hc
  | n + 1, [], _, hl, _ => by simp at hl
  | n + 1, [_], _, hl, _ => by
    rw [List.length_singleton] at hl
    omega
  | n + 1, c :: d :: rest, b, hl, h => by
    simp only [hexPairs, Option.bind_eq_bind, Option.bind_eq_some_iff] at h
    obtain ⟨hi, hc, lo, hd, tail, htail, -⟩ := h
    refine .cons (plainChar_of_bounds (hexValue_bounds hc))
      (.cons (plainChar_of_bounds (hexValue_bounds hd)) (plain_of_hexPairs (n := n) ?_ htail))
    simp only [List.length_cons] at hl
    omega

theorem plain_of_hexDecode {t : Text} {n : ℕ} {b : Bytes} (h : hexDecode t n = some b) :
    Plain t := by
  unfold hexDecode at h
  split at h
  · cases h
  · next hl => exact plain_of_hexPairs (not_not.mp hl) h

/-! ## Taking a slot and emptying it -/

theorem allocPeerSlot_same {i : ℕ} (h : allocPeerSlot s = (s', some i)) :
    s.nPeers ≤ s'.nPeers ∧ s'.listenPort = s.listenPort := by
  unfold allocPeerSlot at h
  repeat' split at h
  all_goals simp only [Prod.mk.injEq] at h
  · exact h.1 ▸ ⟨le_rfl, rfl⟩
  · cases h.2
  · exact h.1 ▸ ⟨Nat.le_succ _, rfl⟩

theorem peerInitRuntime_port {i : ℕ} {pk : Bytes} {ok : Bool}
    (h : peerInitRuntime p s i pk = (s', ok)) : s'.listenPort = s.listenPort := by
  unfold peerInitRuntime at h
  simp only [] at h
  split at h
  all_goals
    simp only [Prod.mk.injEq] at h
    rw [← h.1]
    rfl

theorem peerTombstone_same (s : WgSession) (i : ℕ) :
    (peerTombstone s i).peers = Function.update s.peers i .blank
      ∧ (peerTombstone s i).nPeers = s.nPeers
      ∧ (peerTombstone s i).listenPort = s.listenPort := by
  unfold peerTombstone
  split <;> exact ⟨rfl, rfl, rfl⟩

/-- The two lines of the request. -/
theorem removeText_read (resolve : Resolver) {hex : Text} {pub : Bytes}
    (hk : hexDecode hex 32 = some pub) :
    setLines p resolve (strtok '\n' (cstr (removeText hex))) s none
      = match setPublicKey p s hex with
        | .fail s => (-1, s)
        | .next s none => (0, s)
        | .next s (some i) => (0, peerTombstone s i) := by
  have hkey : FieldText "public_key".toList hex :=
    ⟨by simp [Plain, plainChar, isTrimmed], by decide, by decide, plain_of_hexDecode hk⟩
  have hremove : FieldText "remove".toList "true".toList :=
    ⟨by simp [Plain, plainChar, isTrimmed], by decide, by decide,
      by simp [Plain, plainChar, isTrimmed]⟩
  have hcstr : cstr (removeText hex) = removeText hex := by
    refine Plain.cstr fun c hc => ?_
    simp only [removeText, uapiField, List.mem_append, List.mem_cons, List.not_mem_nil,
      or_false] at hc
    rcases hc with (hc | rfl | hc | rfl) | hc | rfl | hc | rfl
    · exact .inl (hkey.plainKey c hc)
    · exact .inl (by decide)
    · exact .inl (hkey.plainVal c hc)
    · exact .inr rfl
    · exact .inl (hremove.plainKey c hc)
    · exact .inl (by decide)
    · exact .inl (hremove.plainVal c hc)
    · exact .inr rfl
  have hset : setKey p resolve s none "public_key".toList hex = setPublicKey p s hex := by
    unfold setKey
    rw [if_neg (by decide), if_neg (by decide), if_neg (by decide), if_pos rfl]
  rw [hcstr, removeText, setLines_field hkey, hset, ← List.append_nil (uapiField "remove".toList _)]
  rcases setPublicKey p s hex with ⟨s₁, _ | i⟩ | s₁
  · simp only [setLines_field hremove, setKey]
    rw [if_neg (by decide), if_neg (by decide), if_neg (by decide), if_neg (by decide)]
    rfl
  · simp only [setLines_field hremove, setKey]
    rw [if_neg (by decide), if_neg (by decide), if_neg (by decide), if_neg (by decide)]
    simp only [setPeerKey, if_true]
    rfl
  · rfl

/-- A slot is taken and emptied, or there was none. -/
theorem removeText_lines (h : Accounted p s) (resolve : Resolver) {hex : Text} {pub : Bytes}
    (hk : hexDecode hex 32 = some pub) (habs : findPeerByPubkey s pub = none) :
    if ∃ i < wgsMaxPeers, ¬ (s.peers i).active then
      ∃ s' i, setLines p resolve (strtok '\n' (cstr (removeText hex))) s none = (0, s')
        ∧ ¬ (s.peers i).active ∧ s'.peers = Function.update s.peers i .blank
        ∧ s.nPeers ≤ s'.nPeers ∧ s'.listenPort = s.listenPort
    else setLines p resolve (strtok '\n' (cstr (removeText hex))) s none = (-1, s) := by
  rw [removeText_read resolve hk]
  unfold setPublicKey
  simp only [hk, habs]
  rcases halloc : allocPeerSlot s with ⟨s₁, _ | i⟩
  · have hfull := (allocPeerSlot_eq_none h).mp (congrArg Prod.snd halloc)
    obtain rfl := allocPeerSlot_none halloc
    rw [if_neg fun ⟨i, hi, hn⟩ => hn (hfull i hi)]
  · have hfree : ∃ i < wgsMaxPeers, ¬ (s.peers i).active := by
      by_contra hno
      have := (allocPeerSlot_eq_none h).mpr fun i hi => by_contra fun hn => hno ⟨i, hi, hn⟩
      rw [halloc] at this
      cases this
    rw [if_pos hfree]
    obtain ⟨hr₁, hi₁, hout₁, -⟩ := allocPeerSlot_some .all h halloc
    obtain ⟨hp₁, -⟩ := allocPeerSlot_outside halloc
    have hn₁ := allocPeerSlot_same halloc
    rcases hinit : peerInitRuntime p s₁ i pub with ⟨s₂, ok⟩
    have hr₂ : Refines p .all s₁ s₂ ∧ ok = true ∧ (s₂.peers i).active :=
      peerInitRuntime_refines hr₁.1 hi₁ hout₁ trivial hinit
    obtain ⟨-, rfl, -⟩ := hr₂
    obtain ⟨peer, hpeers, hn₂, -⟩ := peerInitRuntime_slot hinit
    have hport := peerInitRuntime_port hinit
    have htomb := peerTombstone_same s₂ i
    refine ⟨peerTombstone s₂ i, i, ?_, hp₁ ▸ hout₁, ?_, ?_, ?_⟩
    · simp only [hinit]
    · rw [htomb.1, hpeers, hp₁, Function.update_idem]
    · rw [htomb.2.1, hn₂]
      exact hn₁.1
    · rw [htomb.2.2, hport, hn₁.2]

/-- Removing a peer that is not there succeeds and changes nothing if and only if a slot is
free. -/
theorem remove_absent_iff (h : ReachableIf p (fun _ _ => True) s) (resolve : Resolver)
    (ntop : ℕ → Bytes → Text) {hex : Text} {pub : Bytes} (hk : hexDecode hex 32 = some pub)
    (habs : ∀ i, (s.peers i).active → (s.peers i).pubkey ≠ pub) :
    ((wgSessionSetUapi p resolve s (removeText hex)).1 = 0
        ∧ Unmoved ntop s (wgSessionSetUapi p resolve s (removeText hex)).2)
      ↔ ∃ i < wgsMaxPeers, ¬ (s.peers i).active := by
  have hacc := reachable_accounted h
  have hnone : findPeerByPubkey s pub = none := by
    rcases hf : findPeerByPubkey s pub with _ | i
    · rfl
    · obtain ⟨-, ha, hpub⟩ := findPeerByPubkey_some hf
      exact absurd hpub (habs i ha)
  have hlines := removeText_lines hacc resolve hk hnone
  have hset : wgSessionSetUapi p resolve s (removeText hex)
      = ((setLines p resolve (strtok '\n' (cstr (removeText hex))) s none).1,
        rebuildAips (setLines p resolve (strtok '\n' (cstr (removeText hex))) s none).2) := rfl
  have hmatch := (routes_match h).2 resolve (removeText hex)
  split at hlines
  · next hfree =>
    refine ⟨fun _ => hfree, fun _ => ?_⟩
    obtain ⟨s₁, i, h₁, hout, hpeers, hn, hport⟩ := hlines
    rw [hset, h₁] at hmatch ⊢
    obtain ⟨-, hpeers', hn'⟩ := rebuildAips_outside s₁
    have hkept : ∀ j, (s.peers j).active ∨ ((rebuildAips s₁).peers j).active →
        (rebuildAips s₁).peers j = s.peers j := fun j hj => by
      rw [hpeers', hpeers, Function.update_apply] at hj ⊢
      split at hj
      · next e =>
        subst e
        exact absurd hj (by simpa [WgsPeer.blank] using hout)
      · next hne => rw [if_neg hne]
    exact ⟨rfl, unmoved_of_kept ntop (routes_match h).1 hmatch hkept (hn' ▸ hn) hacc.range
      ((rebuildAips_device s₁).2.2.trans hport)⟩
  · next hfull =>
    refine ⟨fun hz => ?_, fun hfree => absurd hfree hfull⟩
    rw [hset, hlines] at hz
    exact absurd (show (-1 : Int) = 0 from hz.1) (by decide)

theorem remove_absent_free : ∃ s, sessionA = some s ∧
    (wgSessionSetUapi specimen (names hostB) s (removeText hexC.toList)).1 = 0
      ∧ Unmoved numericNtop s
        (wgSessionSetUapi specimen (names hostB) s (removeText hexC.toList)).2 := by
  have hrun : sessionA.any (fun s => decide (s.nPeers = 1)
      && decide (hexDecode hexC.toList 32 = some (0x30 :: zeros 30 ++ [0x40]))
      && decide ((s.peers 0).pubkey ≠ 0x30 :: zeros 30 ++ [0x40])) = true := by
    decide +kernel
  obtain ⟨s, hs, h⟩ := (Option.any_eq_true _ _).mp hrun
  simp only [Bool.and_eq_true, decide_eq_true_eq] at h
  obtain ⟨⟨hn, hk⟩, hne⟩ := h
  have hreach : ReachableIf specimen (fun _ _ => True) s := ⟨s, [], ⟨_, _, hs⟩, .nil s⟩
  have hrange := (reachable_accounted hreach).range
  refine ⟨s, hs, (remove_absent_iff hreach (names hostB) numericNtop hk fun i ha => ?_).mpr
    ⟨1, by decide, fun ha => ?_⟩⟩
  · have hi := hrange i ha
    obtain rfl : i = 0 := by omega
    exact hne
  · have hi := hrange 1 ha
    omega

/-- A session with as many peers as it can have. -/
def crowded : Option WgSession :=
  wgSessionCreate specimen (names hostB)
    (("[Interface]\nPrivateKey=" ++ keyA ++ "\n").toList ++ ("IMQUYcgk".toList.flatMap fun c =>
      "[Peer]\nPublicKey=".toList ++ c :: keyB.toList.drop 1 ++ ['\n']))

/-- With all slots in use the request fails. -/
theorem remove_absent_full : ¬ ∀ resolve s hex pub, ReachableIf specimen (fun _ _ => True) s →
    hexDecode hex 32 = some pub → (∀ i, (s.peers i).active → (s.peers i).pubkey ≠ pub) →
    (wgSessionSetUapi specimen resolve s (removeText hex)).1 = 0
      ∧ Unmoved numericNtop s (wgSessionSetUapi specimen resolve s (removeText hex)).2 := by
  intro hall
  have hrun : crowded.any (fun s =>
      decide (hexDecode hexA.toList 32 = some (0x10 :: zeros 30 ++ [0x40]))
      && ((List.range 8).all fun i => decide ((s.peers i).pubkey ≠ 0x10 :: zeros 30 ++ [0x40]))
      && decide ((wgSessionSetUapi specimen (names hostB) s (removeText hexA.toList)).1 = -1))
        = true := by
    decide +kernel
  obtain ⟨s, hs, h⟩ := (Option.any_eq_true _ _).mp hrun
  simp only [Bool.and_eq_true, decide_eq_true_eq, List.all_eq_true, List.mem_range] at h
  obtain ⟨⟨hk, hne⟩, hrc⟩ := h
  have hreach : ReachableIf specimen (fun _ _ => True) s := ⟨s, [], ⟨_, _, hs⟩, .nil s⟩
  have hacc := reachable_accounted hreach
  have := (hall (names hostB) s hexA.toList _ hreach hk fun i ha =>
    hne i ((hacc.range i ha).trans_le hacc.small)).1
  rw [hrc] at this
  exact absurd this (by decide)

end PolarWG
