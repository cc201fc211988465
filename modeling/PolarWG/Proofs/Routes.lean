import PolarWG.Proofs.Configured

/-!
# The tries follow the peer list

The table of a family is read off the lists of the active peers, the last entry of a prefix
winning. An insert sets the entry's prefix in the table, so whatever the calls before it, building
the tries anew gives the tables of the peers as they are, and no other call changes either.
-/

namespace PolarWG

open Specimen

variable {p : Prims} {s s' : WgSession}

/-- What identifies an entry among those of `w`-bit addresses: the prefix, and its length. -/
def WgsAllowedCidr.masked (c : WgsAllowedCidr) (w : ℕ) : ℕ × ℕ :=
  (mask w (c.addr.take (w / 8)) c.prefixLen, c.prefixLen)

/-- The last slot listed for a prefix. -/
def lastEntry (family w : ℕ) (l : List (WgsAllowedCidr × ℕ)) (q : ℕ × ℕ) : Option ℕ :=
  (l.reverse.find? fun e => e.1.family = family ∧ e.1.masked w = q).map Prod.snd

/-- The list of a peer in use, each entry with the slot. -/
def slotEntries (peers : ℕ → WgsPeer) (i : ℕ) : List (WgsAllowedCidr × ℕ) :=
  if (peers i).active then (peers i).allowed.map (·, i) else []

/-- The lists of the active peers, in slot order. -/
def activeEntries (s : WgSession) : List (WgsAllowedCidr × ℕ) :=
  (List.range s.nPeers).flatMap (slotEntries s.peers)

/-- What the longest prefix of the address in the table leads to. -/
def longestMatch (w : ℕ) (m : ℕ × ℕ → Option ℕ) (addr : Bytes) : Option ℕ :=
  (List.range (w + 1)).reverse.findSome? fun n => m (mask w addr n, n)

/-- The tries find what the peer list says, and never a slot that is not in use. -/
structure RoutesMatch (s : WgSession) : Prop where
  v4 : ∀ addr : Bytes, addr.length = 4 →
    aipsLookup s.aipsV4 addr = longestMatch 32 (lastEntry afInet 32 (activeEntries s)) addr
  v6 : ∀ addr : Bytes, addr.length = 16 →
    aipsLookup s.aipsV6 addr = longestMatch 128 (lastEntry afInet6 128 (activeEntries s)) addr
  active : ∀ addr i, aipsLookup s.aipsV4 addr = some i ∨ aipsLookup s.aipsV6 addr = some i →
    i < s.nPeers ∧ (s.peers i).active

/-! ## Entries -/

theorem lastEntry_nil (family w : ℕ) : lastEntry family w [] = fun _ => none := rfl

theorem lastEntry_concat (family w : ℕ) (l : List (WgsAllowedCidr × ℕ)) (c : WgsAllowedCidr)
    (i : ℕ) : lastEntry family w (l ++ [(c, i)]) = if c.family = family then
      Function.update (lastEntry family w l) (c.masked w) (some i) else lastEntry family w l := by
  funext q
  unfold lastEntry
  rw [List.reverse_append, List.reverse_singleton, List.singleton_append, List.find?_cons]
  by_cases hf : c.family = family
  · by_cases hq : c.masked w = q
    · simp [hf, hq]
    · simp [hf, hq, Ne.symm hq]
  · simp [hf]

theorem lastEntry_mem {family w : ℕ} {l : List (WgsAllowedCidr × ℕ)} {q : ℕ × ℕ} {i : ℕ}
    (h : lastEntry family w l q = some i) : ∃ c, (c, i) ∈ l := by
  obtain ⟨⟨c, j⟩, hfind, rfl⟩ := Option.map_eq_some_iff.mp h
  exact ⟨c, List.mem_reverse.mp (List.mem_of_find?_eq_some hfind)⟩

theorem activeEntries_mem {c : WgsAllowedCidr} {i : ℕ} (h : (c, i) ∈ activeEntries s) :
    i < s.nPeers ∧ (s.peers i).active := by
  obtain ⟨j, hj, hc⟩ := List.mem_flatMap.mp h
  unfold slotEntries at hc
  split at hc
  · next ha =>
    obtain ⟨_, -, he⟩ := List.mem_map.mp hc
    obtain ⟨-, rfl⟩ := Prod.mk.inj he
    exact ⟨List.mem_range.mp hj, ha⟩
  · cases hc

/-! ## Inserts -/

/-- The tries store the tables of a list of entries. -/
structure Tabled (s : WgSession) (l : List (WgsAllowedCidr × ℕ)) : Prop where
  v4 : Represents s.aipsV4 (lastEntry afInet 32 l) 32
  v6 : Represents s.aipsV6 (lastEntry afInet6 128 l) 128

/-- The bits of an address past the ones of its width are not read. -/
theorem aipsInsert_take {t : AipsTrie ℕ} {addr : Bytes} {k n : ℕ} (h : n ≤ 8 * k) (i : ℕ) :
    aipsInsert t (addr.take k) n i = aipsInsert t addr n i := by
  have hbits : addrBits (addr.take k) 0 n = addrBits addr 0 n := by
    have := addrBits_slice addr 0 k
    rw [List.drop_zero, slice, List.drop_zero] at this
    rw [← take_addrBits _ h, this, take_addrBits _ h]
  simp only [aipsInsert, aipsInsertLoop_eq, hbits]

theorem Represents.entry {t : AipsTrie ℕ} {m : ℕ × ℕ → Option ℕ} {k : ℕ}
    (h : Represents t m (8 * k)) {c : WgsAllowedCidr} (ha : k ≤ c.addr.length)
    (hn : c.prefixLen ≤ 8 * k) (i : ℕ) : Represents (aipsInsert t c.addr c.prefixLen i).2
      (Function.update m (c.masked (8 * k)) (some i)) (8 * k) := by
  have hk : 8 * k / 8 = k := by omega
  have hlen : 8 * (c.addr.take k).length = 8 * k := by
    rw [List.length_take, min_eq_left ha]
  have hins := h.insert ⟨c.addr.take k, c.prefixLen, hlen, hn⟩ i
  rw [aipsInsert_take hn] at hins
  rw [WgsAllowedCidr.masked, hk]
  exact hins

theorem Tabled.insertAllowed {l : List (WgsAllowedCidr × ℕ)} (h : Tabled s l) {c : WgsAllowedCidr}
    (hc : c.Formed) (i : ℕ) : Tabled (insertAllowed i s c) (l ++ [(c, i)]) := by
  obtain ⟨h4, h6⟩ := h
  unfold PolarWG.insertAllowed
  by_cases hf : c.family = afInet
  · rw [if_pos hf]
    refine ⟨?_, ?_⟩
    · rw [lastEntry_concat, if_pos hf]
      exact Represents.entry (k := 4) h4 (by rw [hc.addr]; omega) (hc.v4 hf) i
    · rw [lastEntry_concat, if_neg (by rw [hf]; decide)]
      exact h6
  · obtain ⟨hf', hn⟩ := hc.v6 hf
    rw [if_neg hf]
    refine ⟨?_, ?_⟩
    · rw [lastEntry_concat, if_neg hf]
      exact h4
    · rw [lastEntry_concat, if_pos hf']
      exact Represents.entry (k := 16) h6 hc.addr.ge hn i

theorem Tabled.insertAll (i : ℕ) : ∀ (cs : List WgsAllowedCidr) {s : WgSession}
    {l : List (WgsAllowedCidr × ℕ)}, Tabled s l → (∀ c ∈ cs, c.Formed) →
    Tabled (cs.foldl (PolarWG.insertAllowed i) s) (l ++ cs.map (·, i))
  | [], _, l, h, _ => by
    rw [List.map_nil, List.append_nil]
    exact h
  | c :: cs, s, l, h, hcs => by
    have hc := h.insertAllowed (hcs c List.mem_cons_self) i
    have := Tabled.insertAll i cs hc fun d hd => hcs d (List.mem_cons_of_mem c hd)
    rw [List.append_assoc] at this
    exact this

/-- A loop over slots that puts in each slot's entries puts in the entries of all of them. -/
theorem Tabled.slots {f : WgSession → ℕ → WgSession} {peers : ℕ → WgsPeer} : ∀ {is : List ℕ}
    {s : WgSession} {l : List (WgsAllowedCidr × ℕ)}, (∀ i ∈ is, ∀ s l, s.peers = peers → Tabled s l →
      (f s i).peers = peers ∧ Tabled (f s i) (l ++ slotEntries peers i)) → s.peers = peers →
      Tabled s l → Tabled (is.foldl f s) (l ++ is.flatMap (slotEntries peers))
  | [], _, l, _, _, h => by
    rw [List.flatMap_nil, List.append_nil]
    exact h
  | i :: is, s, l, hf, hs, h => by
    obtain ⟨hp, ht⟩ := hf i List.mem_cons_self s l hs h
    have := Tabled.slots (fun j hj => hf j (List.mem_cons_of_mem i hj)) hp ht
    rw [List.append_assoc] at this
    exact this

theorem tabled_init (h4 : s.aipsV4 = aipsInit 32) (h6 : s.aipsV6 = aipsInit 128) :
    Tabled s [] := by
  refine ⟨?_, ?_⟩
  · rw [h4, lastEntry_nil]
    exact .init
  · rw [h6, lastEntry_nil]
    exact .init

/-! ## Where the tries are built -/

theorem rebuildAips_tabled (h : Sound p s) : Tabled (rebuildAips s) (activeEntries s) := by
  have hinit : Tabled { s with aipsV4 := aipsInit 32, aipsV6 := aipsInit 128 } [] :=
    tabled_init rfl rfl
  refine Tabled.slots (fun i _ s₁ l hs ht => ?_) rfl hinit
  simp only [slotEntries, hs]
  split
  · exact ⟨(foldl_outside (insertAllowed_outside i) _ _).2.1.trans hs,
      ht.insertAll i _ (h.formed i)⟩
  · rw [List.append_nil]
    exact ⟨hs, ht⟩

theorem setUapi_tabled (h : Sound p s) (resolve : Resolver) (text : Text) :
    Tabled (wgSessionSetUapi p resolve s text).2
      (activeEntries (wgSessionSetUapi p resolve s text).2) := by
  have hs := setLines_sound resolve (strtok '\n' (cstr text)) none h
  obtain ⟨-, hpeers, hn⟩ := rebuildAips_outside
    (setLines p resolve (strtok '\n' (cstr text)) s none).2
  have ht := rebuildAips_tabled hs
  unfold activeEntries at ht ⊢
  show Tabled (rebuildAips _) ((List.range (rebuildAips _).nPeers).flatMap
    (slotEntries (rebuildAips _).peers))
  rw [hpeers, hn]
  exact ht

theorem created_tabled (h : Created p s) : Tabled s (activeEntries s) := by
  have hsound := created_sound h
  obtain ⟨resolve, text, h⟩ := h
  simp only [wgSessionCreate, Option.bind_eq_bind, Option.bind_eq_some_iff, Option.pure_def,
    Option.some.injEq] at h
  obtain ⟨s₀, hparse, s₁, hs₁, rfl⟩ := h
  have hp := parseConfigText_parsed hparse
  obtain ⟨h4, h6, hn, ha⟩ := createPeers_tries hs₁
  set s₂ := (if s₁.noise.lHasIdentity then
    { s₁ with checker := cookieCheckerUpdate p s₁.noise.lPublic } else s₁) with hs₂
  obtain ⟨o4, o6, on, op⟩ : s₂.aipsV4 = s₁.aipsV4 ∧ s₂.aipsV6 = s₁.aipsV6
      ∧ s₂.nPeers = s₁.nPeers ∧ s₂.peers = s₁.peers := by
    rw [hs₂]
    split <;> exact ⟨rfl, rfl, rfl, rfl⟩
  have hinit : Tabled s₂ [] := tabled_init (o4.trans (h4.trans hp.v4)) (o6.trans (h6.trans hp.v6))
  have hall : ∀ i ∈ List.range s₂.nPeers, (s₂.peers i).active := fun i hi => by
    rw [op]
    rw [on, hn] at hi
    exact ha i (.inr hi)
  have hout := foldl_outside (fun (s : WgSession) i =>
    foldl_outside (insertAllowed_outside i) (s.peers i).allowed s) (List.range s₂.nPeers) s₂
  have hformed : ∀ i, ∀ c ∈ (s₂.peers i).allowed, c.Formed := fun i => by
    rw [← hout.2.1]
    exact hsound.formed i
  unfold activeEntries
  rw [hout.2.1, hout.2.2]
  refine Tabled.slots (fun i hi s₁ l hs ht => ?_) rfl hinit
  simp only [slotEntries, hs, if_pos (hall i hi)]
  exact ⟨(foldl_outside (insertAllowed_outside i) _ _).2.1.trans hs, ht.insertAll i _ (hformed i)⟩

/-- No call but a request changes what the tries are built from. -/
theorem sessionStep_entries {call : Call} {out : List Upcall} (hc : ¬ call.isRequest)
    (hst : sessionStep p s call = some (s', out)) : activeEntries s' = activeEntries s := by
  obtain ⟨hn, hcfg⟩ := sessionStep_sameConfig hc hst
  have hslot : slotEntries s'.peers = slotEntries s.peers := by
    funext i
    have ha : (s'.peers i).active = (s.peers i).active := congrArg PeerConfig.active (hcfg i)
    have hl : (s'.peers i).allowed = (s.peers i).allowed := congrArg PeerConfig.allowed (hcfg i)
    rw [slotEntries, slotEntries, ha, hl]
  rw [activeEntries, activeEntries, hn, hslot]

/-- Every call leaves the tries storing the tables of the peers it leaves. -/
theorem sessionStep_tabled (hs : Sound p s) (h : Tabled s (activeEntries s)) {call : Call}
    {out : List Upcall} (hst : sessionStep p s call = some (s', out)) :
    Tabled s' (activeEntries s') := by
  by_cases hc : call.isRequest
  · cases call with
    | setUapi resolve text =>
      simp only [sessionStep, Option.some.injEq, Prod.mk.injEq] at hst
      exact hst.1 ▸ setUapi_tabled hs resolve text
    | _ => cases hc
  · obtain ⟨h4, h6, -⟩ := sessionStep_steady hc hst
    rw [sessionStep_entries hc hst]
    exact ⟨h4 ▸ h.v4, h6 ▸ h.v6⟩

theorem reachable_tabled {ok : WgSession → Call → Prop} (h : ReachableIf p ok s) :
    Tabled s (activeEntries s) := by
  obtain ⟨s₀, calls, h0, hrun⟩ := h
  have := hrun.invariant (fun s => Sound p s ∧ Tabled s (activeEntries s))
    ⟨created_sound h0, created_tabled h0⟩ fun s call s' o hs _ hst =>
      ⟨sessionStep_sound hs.1 hst, sessionStep_tabled hs.1 hs.2 hst⟩
  exact this.2

/-! ## What lookups find -/

theorem findSome_congr {α β : Type*} {f g : α → Option β} : ∀ {l : List α},
    (∀ a ∈ l, f a = g a) → l.findSome? f = l.findSome? g
  | [], _ => rfl
  | a :: l, h => by
    have ih := findSome_congr fun b hb => h b (List.mem_cons_of_mem a hb)
    rw [List.findSome?_cons, List.findSome?_cons, h a List.mem_cons_self, ih]

theorem Represents.lookup {t : AipsTrie ℕ} {m : ℕ × ℕ → Option ℕ} {w : ℕ} (h : Represents t m w)
    {addr : Bytes} (ha : 8 * addr.length = w) : aipsLookup t addr = longestMatch w m addr := by
  rw [aipsLookup_eq, h.maxBits, longest_eq_findSome, length_addrBits]
  refine findSome_congr fun n hn => h.find_take ha ?_
  rw [List.mem_reverse, List.mem_range] at hn
  omega

theorem Represents.lookup_mem {t : AipsTrie ℕ} {m : ℕ × ℕ → Option ℕ} {w : ℕ}
    (h : Represents t m w) {addr : Bytes} {i : ℕ} (hl : aipsLookup t addr = some i) :
    ∃ q, m q = some i := by
  rw [aipsLookup_eq, longest_eq_some, h.maxBits] at hl
  obtain ⟨n, -, hn, -⟩ := hl
  rw [h.find _ (by simp)] at hn
  exact ⟨_, hn⟩

theorem Tabled.routesMatch (h : Tabled s (activeEntries s)) : RoutesMatch s where
  v4 := fun addr ha => h.v4.lookup (by rw [ha])
  v6 := fun addr ha => h.v6.lookup (by rw [ha])
  active := fun addr i hl => by
    rcases hl with hl | hl
    · obtain ⟨q, hq⟩ := h.v4.lookup_mem hl
      obtain ⟨c, hc⟩ := lastEntry_mem hq
      exact activeEntries_mem hc
    · obtain ⟨q, hq⟩ := h.v6.lookup_mem hl
      obtain ⟨c, hc⟩ := lastEntry_mem hq
      exact activeEntries_mem hc

/-- After a session is created, after any calls and after any request, the tries match the lists of
the active peers. -/
theorem routes_match {ok : WgSession → Call → Prop} (h : ReachableIf p ok s) :
    RoutesMatch s ∧ ∀ resolve text, RoutesMatch (wgSessionSetUapi p resolve s text).2 :=
  ⟨(reachable_tabled h).routesMatch, fun resolve text =>
    (setUapi_tabled (reachable_sound h) resolve text).routesMatch⟩

/-- Gives the peer B another prefix, and then fails. -/
def rerouting : Text :=
  ("public_key=" ++ hexB ++ "\nreplace_allowed_ips=true\nallowed_ip=10.1.0.0/16\nfwmark=1\n").toList

theorem routes_match_failed : ∃ s, sessionA = some s ∧
    (wgSessionSetUapi specimen (names hostB) s rerouting).1 = -1
    ∧ aipsLookup (wgSessionSetUapi specimen (names hostB) s rerouting).2.aipsV4 [10, 1, 2, 3]
      = some 0
    ∧ aipsLookup (wgSessionSetUapi specimen (names hostB) s rerouting).2.aipsV4 [10, 0, 0, 2]
      = none
    ∧ RoutesMatch (wgSessionSetUapi specimen (names hostB) s rerouting).2 := by
  have hrun : sessionA.any (fun s =>
      let r := wgSessionSetUapi specimen (names hostB) s rerouting
      decide (r.1 = -1) && decide (aipsLookup r.2.aipsV4 [10, 1, 2, 3] = some 0)
        && decide (aipsLookup r.2.aipsV4 [10, 0, 0, 2] = none)) = true := by
    decide +kernel
  obtain ⟨s, hs, h⟩ := (Option.any_eq_true _ _).mp hrun
  simp only [Bool.and_eq_true, decide_eq_true_eq] at h
  obtain ⟨⟨hrc, h1⟩, h2⟩ := h
  have hreach : ReachableIf specimen (fun _ _ => True) s :=
    ⟨s, [], ⟨_, _, hs⟩, .nil s⟩
  exact ⟨s, hs, hrc, h1, h2, (routes_match hreach).2 (names hostB) rerouting⟩

end PolarWG
