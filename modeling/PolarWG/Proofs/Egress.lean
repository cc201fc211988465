import PolarWG.Egress
import PolarWG.Lib.Exact

/-!
# What the polls do to the packet filter

The script puts `-t nat` between the command and the chain, so the command takes `-t` for the chain
and `nat` is a word that no option takes: `iptables` refuses each of the three commands, and no poll
ever changes a rule.
-/

namespace PolarWG

variable {supernet : Text} {h h' : EgressHost} {c : EgressCall}

/-! ## What is wanted -/

def masquerade (supernet egif : Text) : NatRule :=
  ⟨some supernet, some egif, some "MASQUERADE".toList, []⟩

/-- It is the agent's rule, for some interface. -/
def IsMasquerade (supernet : Text) (r : NatRule) : Prop := ∃ egif, r = masquerade supernet egif

def Netfilter.postrouting (n : Netfilter) : List NatRule :=
  (n "nat".toList "POSTROUTING".toList).getD []

/-- The rule is there once for the interface of the default route, or nowhere. -/
def Desired (supernet : Text) (c : EgressCall) (n : Netfilter) : Prop :=
  if c.enable then
    egressInterface c.routeOutput ≠ [] →
      n.postrouting.count (masquerade supernet (egressInterface c.routeOutput)) = 1
  else ∀ r ∈ n.postrouting, ¬ IsMasquerade supernet r

open Classical in
/-- The call leaves what is wanted, and all other rules as they were. -/
def Converges (supernet : Text) (h : EgressHost) (c : EgressCall) (h' : EgressHost) :
    Prop :=
  Desired supernet c h'.netfilter ∧ ∀ table chain,
    (h'.netfilter table chain).map (·.filter fun r => ¬ IsMasquerade supernet r)
      = (h.netfilter table chain).map (·.filter fun r => ¬ IsMasquerade supernet r)

/-! ## What is done -/

/-- The words in the order of the shell script: the chain after the command. -/
example : (iptables (fun _ _ => some []) (["-t", "nat", "-A", "POSTROUTING", "-s", "100.64.0.0/10",
    "-o", "eth0", "-j", "MASQUERADE"].map String.toList)).2.postrouting
      = [masquerade "100.64.0.0/10".toList "eth0".toList] := by
  decide

theorem iptables_refused {w : Text} {command : RuleCommand} (hw : ruleCommand w = some command)
    (n : Netfilter) (supernet egif : Text) :
    iptables n (w :: egressRule supernet egif) = (false, n) := by
  have hnat : ruleCommand "nat".toList = none := rfl
  have hnone : ∀ a : IptablesArgs, a.command = none →
      iptablesArgs (w :: egressRule supernet egif) a = none := fun a ha => by
    unfold egressRule
    rw [iptablesArgs, hw]
    simp only [ha, if_true]
    rw [iptablesArgs, hnat]
    rfl
  unfold iptables
  rw [hnone _ rfl]
  rfl

theorem applyEgressNATLinux_netfilter (supernet : Text) (h : EgressHost) (c : EgressCall) :
    (applyEgressNATLinux supernet h c).1.netfilter = h.netfilter := by
  have hC : ruleCommand "-C".toList = some .check := rfl
  have hA : ruleCommand "-A".toList = some .append := rfl
  unfold applyEgressNATLinux
  simp only [iptables_refused hC, iptables_refused hA, Bool.false_eq_true, if_false]
  split_ifs <;> rfl

/-- After every call of a run the filter is as it should be exactly if it was so before it. -/
theorem egress_converges (supernet : Text) {cs : List EgressCall}
    (hrun : FreeRun (egressStep supernet) h cs h') :
    EveryStep (egressStep supernet) (Converges supernet) h cs
      ↔ Run (egressStep supernet) (fun h c => Desired supernet c h.netfilter) h cs h' := by
  refine hrun.everyStep_iff fun s c s' o hstep => ?_
  simp only [egressStep, Option.some.injEq] at hstep
  have hsame : s'.netfilter = s.netfilter := by
    rw [← applyEgressNATLinux_netfilter supernet s c, hstep]
  rw [Converges, hsame]
  exact and_iff_left fun _ _ => rfl

namespace Specimen

/-- A host whose chains are empty. -/
def bareHost : EgressHost := ⟨fun _ _ => some [], some ['1', '\n']⟩

def egressPoll (enable : Bool) : EgressCall :=
  ⟨"wgc0".toList, true, "1.1.1.1 via 10.0.0.1 dev eth0 src 10.0.0.2 uid 0\n".toList, enable⟩

end Specimen

open Specimen

theorem egress_converges_off : EveryStep (egressStep "100.64.0.0/10".toList)
    (Converges "100.64.0.0/10".toList) bareHost [egressPoll false] := by
  have hrun : FreeRun (egressStep "100.64.0.0/10".toList) bareHost [egressPoll false]
      (applyEgressNATLinux "100.64.0.0/10".toList bareHost (egressPoll false)).1 :=
    .cons trivial rfl (.nil _)
  have hdesired : Desired "100.64.0.0/10".toList (egressPoll false) bareHost.netfilter :=
    fun r hr => absurd hr List.not_mem_nil
  exact (egress_converges _ hrun).mpr (.cons hdesired rfl (.nil _))

/-- The first poll that asks for the rule leaves the chain without it. -/
theorem egress_never_on : ¬ ∀ supernet h cs,
    EveryStep (egressStep supernet) (Converges supernet) h cs := by
  intro hall
  have hstep : egressStep "100.64.0.0/10".toList bareHost (egressPoll true)
      = some ((applyEgressNATLinux "100.64.0.0/10".toList bareHost (egressPoll true)).1,
        (applyEgressNATLinux "100.64.0.0/10".toList bareHost (egressPoll true)).2) := rfl
  have := ((hall _ _ [egressPoll true]).head hstep).1
  rw [applyEgressNATLinux_netfilter, Desired, if_pos (show (egressPoll true).enable = true from rfl)]
    at this
  exact absurd (this (by decide)) (by decide)

end PolarWG
