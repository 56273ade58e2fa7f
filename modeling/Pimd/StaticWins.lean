/-
Pimd/StaticWins.lean

A configured RP against an Auto-RP deny, over runs of the RP set.

`rp_grp_match` does not take a mapping of pimd.conf away from a denied group.
A group that is denied has no RP as long as its best mapping was learned, and
gains one with

    an addition        of a mapping of pimd.conf that is the best there is, or
                       that makes a learned one its own
    a deletion, a pass that takes what was above a mapping of pimd.conf

Of these only the first mapping of a range comes with a walk over the groups
without an RP.  The others leave the group behind (`Stranded`), and a run in
which none of them meets a denied group does not (`RpOp.Quiet`).
-/
import Pimd.AutorpLearn
import Pimd.Lib.Run

namespace Pimd

open Best Maps Stepping

/-! ### Environments -/

/-- The same groups are SSM groups, and the mirror of Auto-RP is the same. -/
structure Env.SameMirror (env env' : Env) : Prop where
  ssmList : env'.ssmList = env.ssmList
  autorpMaps : env'.autorpMaps = env.autorpMaps

theorem Env.SameMirror.shut {env env' : Env} (h : env.SameMirror env') (l : List GrpMask) :
    env'.shut l = env.shut l := by
  funext g
  rw [Env.shut, Env.shut, autorpDenied, autorpDenied, h.autorpMaps, Env.ssm, Env.ssm, h.ssmList]

namespace Router

variable (env : Env) {r : Router}

/-- **A configured RP wins over an Auto-RP deny** in every run that gives no
denied group a mapping of pimd.conf which its walks do not meet: a group with a
static mapping refers to it. -/
theorem static_rp_beats_deny {r₀ r : Router} (hr₀ : r₀.Kept)
    (hnow : r₀.GroupsFollow env)
    (hrun : Run (fun r (a : Env × RpOp) => some (a.2.run a.1 r))
      (fun r a => env.SameMirror a.1 ∧ a.2.EditsRpSet ∧ a.2.Contiguous ∧ a.2.Quiet a.1 r) r₀ r) :
    ∀ g ∈ r.grplist, ∀ e, r.rpGrpMatch env g.group = some e → e.origin.static = true →
      g.active = some e.ptr ∧ g.group ∉ r.grpNorpList := by
  have hcoh : r.CoherentNow env := by
    refine hrun.keeps (coherentNow_iff.2 ⟨hr₀, hnow⟩) ?_
    rintro s s' ⟨env', op⟩ hs ⟨hmirror, hop, hmask, hquiet⟩ hstep
    obtain rfl := Option.some.inj hstep
    rw [CoherentNow, ← hmirror.shut] at hs ⊢
    exact CoherentNow.step env' hs hop hmask hquiet
  intro g hg e he _
  obtain ⟨hact, hnorp⟩ := (coherentNow_iff.1 hcoh).2 g hg
  rw [he] at hact hnorp
  exact ⟨hact, fun hin => absurd (hnorp.1 hin) (by simp)⟩

/-- 225/8 is denied. -/
def denyEnv : Env :=
  { smallEnv with autorpMaps := [⟨quad 225 0 0 0, masklenToMask 8, 8, true⟩] }

/-- The group 225.1.1.1 with a source, and no RP set yet. -/
def sourceRun : List RpOp := [.findRoute (quad 10 0 1 5) (quad 225 1 1 1) ⟨true, false, false⟩ true]

/-- A mapping for `225.0.0.0` with a mask of this length. -/
def mapsTo (rp : Addr) (len : ℕ) (origin : Origin) : RpOp :=
  .add .live ⟨rp, 0, 150, quad 225 0 0 0, masklenToMask len, masklenToMask 30, 1, origin⟩

/-- The group gets the RP of pimd.conf with the first mapping of 225/8. -/
theorem static_rp_beats_deny_first :
    let r₀ := start.runOps (sourceRun.map (smallEnv, ·))
    let r := r₀.runOps ([mapsTo (quad 10 0 2 9) 4 .bsr, mapsTo (quad 10 0 2 7) 8 .static].map
      (denyEnv, ·))
    r.grplist.map (fun g => (g.group, g.rpaddr)) = [(quad 225 1 1 1, quad 10 0 2 7)] ∧
      ∀ g ∈ r.grplist, ∀ e, r.rpGrpMatch denyEnv g.group = some e → e.origin.static = true →
        g.active = some e.ptr ∧ g.group ∉ r.grpNorpList := by
  intro r₀ r
  have hcoh : r₀.CoherentNow smallEnv :=
    (coherentRp_iff_now ⟨rfl, by simp [smallEnv]⟩).1 (coherentRp_smallEnv (by decide))
  have hmirror : denyEnv.SameMirror denyEnv := ⟨rfl, rfl⟩
  have hmakes : MakesRange denyEnv
      (r₀.runOps [(denyEnv, mapsTo (quad 10 0 2 9) 4 .bsr)])
      ⟨quad 10 0 2 7, 0, 150, quad 225 0 0 0, masklenToMask 8, masklenToMask 30, 1, .static⟩ := by
    refine ⟨?_, ?_, ?_, ?_⟩ <;> decide +kernel
  refine ⟨by decide +kernel,
    static_rp_beats_deny denyEnv (coherentNow_iff.1 hcoh).1 (by decide +kernel) ?_⟩
  refine .act (denyEnv, mapsTo (quad 10 0 2 7) 8 .static)
    (.act (denyEnv, mapsTo (quad 10 0 2 9) 4 .bsr) .refl ?_ rfl) ?_ rfl
  · exact ⟨hmirror, trivial, by decide, fun ha => by cases ha⟩
  · exact ⟨hmirror, trivial, by decide, fun _ => .inl hmakes⟩

/-- The group stays without an RP where a mapping of pimd.conf joins a learned
one of its range, makes it its own, or is left when the learned one above it
goes. -/
theorem static_rp_left_behind :
    let r₀ := start.runOps (sourceRun.map (smallEnv, ·))
    r₀.GroupsFollow denyEnv ∧
      ∀ ops ∈ [[mapsTo (quad 10 0 2 8) 8 .bsr, mapsTo (quad 10 0 2 9) 8 .static],
          [mapsTo (quad 10 0 2 9) 8 .bsr, mapsTo (quad 10 0 2 9) 8 .static],
          [mapsTo (quad 10 0 2 9) 4 .static, mapsTo (quad 10 0 2 8) 8 .bsr,
            .deleteEntry .live 1]],
        let r := r₀.runOps (ops.map (denyEnv, ·))
        (r.rpGrpMatch denyEnv (quad 225 1 1 1)).any (fun e => e.origin.static) = true ∧
          r.grplist.map (fun g => (g.group, g.active)) = [(quad 225 1 1 1, none)] ∧
          r.grpNorpList = [quad 225 1 1 1] := by
  decide +kernel

end Router

end Pimd
