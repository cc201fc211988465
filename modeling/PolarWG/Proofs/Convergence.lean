import PolarWG.Proofs.Renderers

/-!
# Agent convergence

The configuration that the agent builds is the one it reads back, where every value is one that
trimming and splitting leave alone.
-/

namespace PolarWG

open Trim

/-! ## Values that are read back -/

/-- A value on one line without blanks around it. -/
def Field (t : Text) : Prop := OneLine t ∧ trimmed t = t

/-- An entry of a list. -/
def Entry (t : Text) : Prop := Field t ∧ t ≠ [] ∧ ',' ∉ t

theorem trimmed_of_plain {t : Text} (h : ∀ c ∈ t, ¬ isWhitespaces c) : trimmed t = t := by
  rw [trimmed_eq, List.dropWhile_eq_self_iff.mpr fun hl => h _ (List.getElem_mem hl)]
  exact List.rdropWhile_eq_self_iff.mpr fun hl => h _ (List.getLast_mem hl)

theorem dropWhile_of_trimmed {t : Text} (h : trimmed t = t) : t.dropWhile isWhitespaces = t := by
  have hle : t.length ≤ (t.dropWhile isWhitespaces).length := by
    conv_lhs => rw [← h]
    exact (List.rdropWhile_prefix _ _).length_le
  exact (List.dropWhile_suffix _).eq_of_length_le hle

theorem trimmed_fmtUnsigned (n : ℕ) : trimmed (fmtUnsigned n) = fmtUnsigned n :=
  trimmed_of_plain fun c hc => not_isWhitespaces_of_bounds
    (by have := isDigit_bounds (isDigit_of_mem_fmtUnsigned hc); omega)

theorem field_fmtSigned {n : ℤ} (h : 0 ≤ n) : Field (fmtSigned n) := by
  obtain ⟨m, rfl⟩ := Int.eq_ofNat_of_zero_le h
  exact ⟨oneLine_fmtSigned _, trimmed_fmtUnsigned m⟩

theorem intOfText_fmtUnsigned {n : ℕ} (h : n < 2 ^ 63) : intOfText (fmtUnsigned n) = some (n : ℤ) := by
  have hdig := digitsNat_fmtUnsigned n
  have hall : (fmtUnsigned n).all Char.isDigit :=
    List.all_eq_true.mpr fun c hc => isDigit_of_mem_fmtUnsigned hc
  obtain ⟨c, t, ht⟩ := List.exists_cons_of_ne_nil (l := fmtUnsigned n) Nat.toDigits_ne_nil
  have hc := isDigit_of_mem_fmtUnsigned (n := n) (c := c) (by simp [ht])
  unfold intOfText
  rw [ht] at hdig hall ⊢
  simp only []
  split
  · next e =>
    obtain rfl := (List.cons.inj e).1
    exact absurd hc (by decide)
  · next e =>
    obtain rfl := (List.cons.inj e).1
    exact absurd hc (by decide)
  · rw [if_pos ⟨by simp, hall⟩, hdig]
    exact Option.filter_eq_some_iff.mpr ⟨rfl, decide_eq_true ⟨by omega, by omega⟩⟩

theorem splitList_joined {ts : List Text} (h : ∀ t ∈ ts, Entry t) :
    splitList (joined ", ".toList ts) = ts := by
  have htrim : ∀ t ∈ ts, trimmed t = t := fun t ht => (h t ht).1.2
  have hkeep : ts.filter (· ≠ []) = ts :=
    List.filter_eq_self.mpr fun t ht => decide_eq_true (h t ht).2.1
  rcases ts with _ | ⟨t, ts⟩
  · rfl
  unfold splitList
  rw [strtok_blank_joined (fun u hu => (h u hu).2.2) (h t List.mem_cons_self).2.1]
  have hmap : (t :: ts.map (' ' :: ·)).map trimmed = t :: ts := by
    rw [List.map_cons, htrim t List.mem_cons_self, List.map_map]
    refine congrArg (t :: ·) ?_
    refine (List.map_congr_left fun u hu => ?_).trans (List.map_id ts)
    exact (trimmed_blank u).trans (htrim u (List.mem_cons_of_mem t hu))
  rw [hmap, hkeep]

/-! ## Peers and interfaces that are read back -/

structure WGPeerSection.Clean (s : WGPeerSection) : Prop where
  publicKey : Field s.publicKey ∧ s.publicKey ≠ []
  endpoint : ∀ e, s.endpoint = some e → Field e ∧ e ≠ []
  allowedIPs : ∀ t ∈ s.allowedIPs, Entry t
  keepalive : ∀ ka, s.keepalive = some ka → 0 < ka ∧ ka < 2 ^ 63

theorem WGPeerSection.Clean.endpoint_filter {s : WGPeerSection} (h : s.Clean) :
    s.endpoint.filter (· ≠ []) = s.endpoint := by
  rcases he : s.endpoint with _ | e
  · rfl
  · simp [Option.filter, (h.endpoint e he).2]

theorem WGPeerSection.Clean.oneLine {s : WGPeerSection} (h : s.Clean) : s.block.OneLine where
  publicKey := h.publicKey.1.1
  endpoint e he := (h.endpoint e (Option.filter_eq_some_iff.mp he).1).1.1
  allowedIPs t ht := (h.allowedIPs t ht).1.1

/-- The block of a clean peer is the peer. -/
theorem WGPeerSection.Clean.peer {s : WGPeerSection} (h : s.Clean) : s.block.peer = s := by
  have hend : (s.endpoint.bind fun e => if trimmed e = [] then none else some (trimmed e))
      = s.endpoint := by
    rcases he : s.endpoint with _ | e
    · rfl
    · obtain ⟨hf, hne⟩ := h.endpoint e he
      rw [Option.bind_some, hf.2, if_neg hne]
  have hka : (if 0 < s.keepalive.getD 0 then
      intOfText (trimmed (fmtSigned (s.keepalive.getD 0))) else none) = s.keepalive := by
    rcases hk : s.keepalive with _ | ka
    · rfl
    · obtain ⟨h0, h1⟩ := h.keepalive ka hk
      obtain ⟨n, rfl⟩ := Int.eq_ofNat_of_zero_le h0.le
      rw [Option.getD_some, if_pos h0]
      exact (congrArg intOfText (trimmed_fmtUnsigned n)).trans (intOfText_fmtUnsigned (by omega))
  unfold WGPeerSection.block Block.peer
  simp only [h.endpoint_filter, hend, hka, h.publicKey.1.2, splitList_trimmed,
    splitList_joined h.allowedIPs]

/-- An interface that is read back. -/
structure WGInterfaceSection.Clean (i : WGInterfaceSection) : Prop where
  tidy : i.Tidy
  privateKey : trimmed i.privateKey = i.privateKey ∧ i.privateKey ≠ []
  address : trimmed i.address = i.address
  listenPort : trimmed i.listenPort = i.listenPort
  extras : ∀ kv ∈ i.extras, trimmed kv.key = kv.key ∧ trimmed kv.value = kv.value

theorem WGInterfaceSection.Clean.read {i : WGInterfaceSection} (h : i.Clean) : i.read = i := by
  have hextras : i.extras.map (fun kv => (⟨trimmed kv.key, trimmed kv.value⟩ : WGKeyValue))
      = i.extras := by
    refine (List.map_congr_left fun kv hkv => ?_).trans (List.map_id _)
    obtain ⟨h1, h2⟩ := h.extras kv hkv
    rw [h1, h2, id]
  unfold WGInterfaceSection.read
  rw [h.privateKey.1, h.address, h.listenPort, hextras]

/-- Rendered and read again, only the order of the peers is another. -/
theorem parse_render_clean {c : WGConfig} (hi : c.interface.Clean) (hs : ∀ s ∈ c.peers, s.Clean) :
    WGConfig.parse c.render = some ⟨c.interface, sortedPeers c.peers⟩ := by
  have hkey : trimmed c.interface.privateKey ≠ [] := by
    rw [hi.privateKey.1]
    exact hi.privateKey.2
  have hpeers : keptPeers ((sortedPeers c.peers).map WGPeerSection.block) = sortedPeers c.peers := by
    have hclean : ∀ s ∈ sortedPeers c.peers, s.Clean := fun s h =>
      hs s ((sortedPeers_perm c.peers).subset h)
    have hmap : (sortedPeers c.peers).map (Block.peer ∘ WGPeerSection.block) = sortedPeers c.peers :=
      (List.map_congr_left fun s h => (hclean s h).peer).trans (List.map_id _)
    unfold keptPeers
    rw [List.map_map, hmap]
    exact List.filter_eq_self.mpr fun s h => decide_eq_true (hclean s h).publicKey.2
  rw [parse_render_config hi.tidy hkey fun s h => (hs s h).oneLine, hi.read, hpeers]

/-! ## What the agent builds -/

/-- A listed peer of the answer whose fields are read back. -/
structure PeerEntry.Clean (entry : PeerEntry) : Prop where
  pubkey : Field entry.pubkey
  endpoint : ∀ e, entry.endpoint = some e → Field e
  allowedIPs : ∀ t ∈ entry.allowedIPs, Entry t

theorem PeerEntry.Clean.peerSection {entry : PeerEntry} (h : entry.Clean) {keepalive : ℤ}
    (hk : keepalive < 2 ^ 63) {s : WGPeerSection} (hs : entry.peerSection keepalive = some s) :
    s.Clean := by
  unfold PeerEntry.peerSection at hs
  split at hs
  · cases hs
  next hpub =>
  split at hs
  · cases hs
  obtain rfl := Option.some.inj hs
  refine ⟨⟨h.pubkey, hpub⟩, fun e he => ?_, h.allowedIPs, fun ka hka => ?_⟩
  · simp only [] at he
    split at he
    · cases he
    · next hne => exact ⟨h.endpoint e he, fun hn => hne (hn ▸ he)⟩
  · simp only [] at hka
    split at hka
    · next hpos =>
      obtain rfl := Option.some.inj hka
      exact ⟨hpos, hk⟩
    · cases hka

theorem WGInterfaceSection.Clean.filled {i : WGInterfaceSection} (h : i.Clean)
    {deviceIP : Option Text} (hd : ∀ ip, deviceIP = some ip → Field ip) {port : ℤ} (hp : 0 ≤ port) :
    (i.filled deviceIP port).Clean where
  tidy := h.tidy.filled (fun ip e => (hd ip e).1) port
  privateKey := h.privateKey
  address := by
    unfold WGInterfaceSection.filled
    rcases deviceIP with _ | ip
    · exact h.address
    · simp only []
      split
      · split
        · exact (hd ip rfl).2
        · have hdrop := dropWhile_of_trimmed (hd ip rfl).2
          have hsuffix : ip ++ "/24".toList = ip ++ '/' :: "24".toList := rfl
          rw [hsuffix, trimmed_eq, dropWhile_append_cons (by decide), hdrop,
            rdropWhile_append_cons (by decide)]
          rfl
      · exact h.address
  listenPort := by
    unfold WGInterfaceSection.filled
    simp only []
    split
    · exact (field_fmtSigned hp).2
    · exact h.listenPort
  extras := h.extras

theorem sameSet_perm {ts us : List Text} (h : ts.Perm us) : SameSet ts us := fun _ => h.mem_iff

namespace Specimen

/-- The server's answer to a poll, with the networks behind the hub. -/
def polled (networks : List Text) : PeersResponse where
  peers := [⟨keyB.toList, some "10.88.0.1".toList, some "hub.example:1632".toList, networks⟩]
  keepaliveSec := none
  deviceIP := none

theorem field_const {s : String} (h : s.toList.all fun c => c ≠ '\n' ∧ c ≠ '\r')
    (ht : trimmed s.toList = s.toList) : Field s.toList := ⟨.const h, ht⟩

theorem onDisk_clean : onDisk.interface.Clean where
  tidy := onDisk_tidy
  privateKey := ⟨by decide, by decide⟩
  address := by decide
  listenPort := by decide
  extras kv hkv := by
    obtain rfl := List.mem_singleton.mp hkv
    exact ⟨by decide, by decide⟩

end Specimen

end PolarWG
