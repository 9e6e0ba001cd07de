import InvitationService.Lifecycle.Interleaving
import InvitationService.Model.MagicLinkRequest

namespace InvitationService.GuestMagicLink

open Resumption

/-! The requests for a magic link look at the world of the service and leave it alone. -/

variable {dep : Deployment} {q : LinkCall} {p : LinkProgram Unit}

theorem incr_spectates (key : String) : (perform (LinkQuery.incr key)).Spectates worldPart :=
  spectates_perform (Block.moves_call (fun _ => rfl) fun _ => rfl)

theorem expire_spectates (key : String) (ms : Nat) :
    (perform (LinkQuery.expire key ms)).Spectates worldPart :=
  spectates_perform (Block.moves_call (fun _ => rfl) fun _ => rfl)

theorem record_spectates (result : InternalResult) (channel : Option Channel) :
    (perform (q.record dep result channel)).Spectates worldPart :=
  spectates_perform (Block.moves_record fun _ => rfl)

theorem send_spectates (payload : LinkRequestDTO) :
    (perform (LinkQuery.send payload)).Spectates worldPart :=
  spectates_perform (Block.moves_call (fun _ => rfl) fun _ => rfl)

theorem clock_spectates : (perform LinkQuery.clock).Spectates worldPart :=
  spectates_perform (Block.moves_observe fun _ => rfl)

theorem findMatches_spectates (normalized : NormalizedIdentifier) (tenantId : TenantId) :
    (perform ((findMatches dep.lower normalized tenantId).zoom worldPart)).Spectates worldPart :=
  spectates_perform fun _ => (Prog.post_zoom worldPart).2 (Block.post_call.2 ⟨rfl, rfl⟩)

theorem isRateLimited_spectates (ip : Option String) :
    (isRateLimited dep ip).Spectates worldPart := by
  unfold isRateLimited
  split
  · exact Prog.spectates_ret _
  · refine (incr_spectates _).bind fun count => ?_
    exact .ite ((expire_spectates _ _).bind fun _ => Prog.spectates_ret _) (Prog.spectates_ret _)

theorem dispatch_spectates (tenantId : TenantId) (normalized : NormalizedIdentifier)
    (found : List ContactMatch) : (q.dispatch dep tenantId normalized found).Spectates
      worldPart := by
  unfold LinkCall.dispatch
  split
  · exact record_spectates _ _
  · exact (send_spectates _).bind fun _ => record_spectates _ _

theorem lookup_spectates (normalized : NormalizedIdentifier) :
    (q.lookup dep normalized).Spectates worldPart := by
  unfold LinkCall.lookup
  split
  · exact record_spectates _ _
  · refine (findMatches_spectates _ _).bind fun found => ?_
    refine Prog.Spectates.ite (record_spectates _ _) (clock_spectates.bind fun now => ?_)
    refine Prog.Spectates.ite (clock_spectates.bind fun _ => record_spectates _ _) ?_
    exact dispatch_spectates _ _ _

theorem request_spectates : (q.request dep).Spectates worldPart := by
  unfold LinkCall.request
  refine (isRateLimited_spectates _).bind fun limited => ?_
  refine Prog.Spectates.ite (record_spectates _ _) ?_
  split
  · exact record_spectates _ _
  · exact (lookup_spectates _).tryCatch fun _ => record_spectates _ _

theorem links_observe (dep : Deployment) : (links dep).Observes worldPart where
  exec _ := request_spectates
  arrive _ _ := rfl
  env _ _ h := by cases h; rfl

variable {s₀ s : LinkWorld} {ts : List (System.Thread (Nat → Bool) LinkWorld Exception
  (Request ⊕ LinkCall))}

/-- Whatever requests for a link come in between, the world of the service is one that its other
calls alone lead to. -/
theorem links_leave_service (hs : (recovery dep).Interleaved s₀ ts s) :
    ∃ us, (service dep.toConfig).Interleaved s₀.world us s.world ∧
      us.map (·.call) = ts.filterMap (·.call.getLeft?) := by
  obtain ⟨us, hus, hrun⟩ := hs.component (links_observe dep)
  exact ⟨us, hrun, hus.calls⟩

def plainDeployment : Deployment := { plainConfig with lower := id, hmac := id }

def guestWorld : World where
  db := { World.empty.db with
    invitations := InvitationTable.empty.insert {
      type := .privateInvite, firstName := "A", lastName := "B", eventId := 7
      guestProfileId := some 77, email := some "a@b.de", status := .approved
      eventEndsAt := some 100 } nofun
    settings := fun e => if e = 7 then some { tenantId := some 1 } else none }
  pendingContact := World.empty.pendingContact
  nextToken := 0
  resendCooldown := World.empty.resendCooldown
  locks := World.empty.locks
  nextLock := 0
  now := 0
  journal := []

def guestCall : LinkCall where
  identifier := " a@b.de"
  client := { locale := "de-DE", device := "mobile", ip := some "127.0.0.1", location := "Berlin" }
  context := { tenantId := some 1 }

def requestedFrom (s : LinkWorld) (n : Nat) : LinkWorld :=
  n.repeat (fun s => ((guestCall.request plainDeployment).run (fun _ _ => false)
    ((links plainDeployment).arrive guestCall s)).2) s

abbrev requested (n : Nat) : LinkWorld := requestedFrom { world := guestWorld } n

theorem requestedFrom_run (hs : (recovery plainDeployment).Interleaved s₀ ts s) (n : Nat) :
    ∃ us, (recovery plainDeployment).Interleaved s₀ us (requestedFrom s n) ∧
      us.map (·.call) = List.replicate n (.inr guestCall) ++ ts.map (·.call) := by
  induction n with
  | zero => exact ⟨ts, hs, rfl⟩
  | succ n ih =>
    obtain ⟨us, hus, hcalls⟩ := ih
    exact ⟨_, hus.run (.inr guestCall) trivial fun _ _ => false, by
      simp [hcalls, List.replicate_succ]⟩

theorem requested_run (n : Nat) : ∃ ts, (recovery plainDeployment).Interleaved
    { world := guestWorld } ts (requested n) ∧
      ts.map (·.call) = List.replicate n (.inr guestCall) := by
  simpa using requestedFrom_run .start n

def searched : LinkProgram Unit × LinkWorld :=
  (guestCall.request plainDeployment).advance 3 (fun _ _ => false)
    ((links plainDeployment).arrive guestCall { world := guestWorld })

def removal : Request := ⟨.removeInvitation 0 (some 7), {}⟩

def removedMeanwhile : LinkWorld :=
  (((recovery plainDeployment).exec (.inl removal)).run (fun _ _ => false)
    ((recovery plainDeployment).arrive (.inl removal) searched.2)).2

def requestedMeanwhile : LinkWorld := (searched.1.run (fun _ _ => false) removedMeanwhile).2

theorem links_leave_service_once : ∃ us ts, (recovery plainDeployment).Interleaved
      { world := guestWorld } ts requestedMeanwhile ∧
    ts.map (·.call) = [.inl removal, .inr guestCall] ∧ requestedMeanwhile.sent.length = 1 ∧
    (requestedMeanwhile.world.row 0).isNone ∧
    (service plainConfig).Interleaved guestWorld us requestedMeanwhile.world ∧
      us.map (·.call) = [removal] := by
  have harrived : (recovery plainDeployment).Interleaved { world := guestWorld }
      ([] ++ [⟨.inr guestCall, _, guestCall.request plainDeployment⟩]) _ :=
    System.Interleaved.start.call (c := Sum.inr guestCall) trivial
  have hsearched : (recovery plainDeployment).Interleaved { world := guestWorld }
      ([] ++ [⟨.inl removal, _, (recovery plainDeployment).exec (.inl removal)⟩,
        ⟨.inr guestCall, _, searched.1⟩]) _ :=
    (harrived.advance 3 fun _ _ => false).call (c := Sum.inl removal) trivial
  have hremoved : (recovery plainDeployment).Interleaved { world := guestWorld }
      ([⟨.inl removal, _, .ret _⟩] ++ [⟨.inr guestCall, _, searched.1⟩]) removedMeanwhile :=
    hsearched.finish (Prog.exec_run (fun _ => .refl) _ (fun _ _ => false) _)
  have hrun : (recovery plainDeployment).Interleaved { world := guestWorld } _ requestedMeanwhile :=
    hremoved.finish (Prog.exec_run (fun _ => .refl) _ (fun _ _ => false) _)
  obtain ⟨us, hus, hmap⟩ := links_leave_service hrun
  exact ⟨us, _, hrun, rfl, by decide +kernel, by decide +kernel, hus, hmap⟩

inductive Meanwhile : LinkWorld → LinkWorld → Prop
  | world {s : LinkWorld} {w : World} : s.world.now ≤ w.now → Meanwhile s { s with world := w }
  | expiry {s t : LinkWorld} : Expiry s t → Meanwhile s t

abbrev linksMeanwhile (dep : Deployment) : System (Nat → Bool) LinkWorld Exception LinkCall :=
  { links dep with env := Meanwhile }

theorem service_step {c : Request} {us vs : List (System.Thread (Nat → Bool) LinkWorld Exception
      (Request ⊕ LinkCall))} {a : LinkWorld} {β : Type}
    {f : (Nat → Bool) → LinkWorld → Except Exception β × LinkWorld} {k : β → LinkProgram Unit}
    (hs : (recovery dep).Interleaved s₀ (us ++ ⟨.inl c, a, .step f k⟩ :: vs) s) (i : Nat → Bool) :
    ∃ w : World, (f i s).2 = { s with world := w } ∧ s.world.now ≤ w.now := by
  obtain ⟨ys, hys, hrun⟩ := hs.component (links_observe dep)
  obtain ⟨us', vs', -, -, ⟨y, rfl, hy⟩ | ⟨-, ho⟩⟩ := hys.split
  · obtain ⟨g, l, he, hset, -⟩ := hy.step i s
    rw [he] at hrun
    exact ⟨_, hset, (Interleaved.action hrun i).now_eq.ge⟩
  · exact absurd ho.call nofun

theorem links_meanwhile (hs : (recovery dep).Interleaved s₀ ts s) :
    (linksMeanwhile dep).Interleaved s₀ (ts.filterMap (·.right?)) s := by
  refine hs.others ?_ (fun _ _ _ => .world (Nat.le_refl _)) fun us vs c a s β f k i hs => ?_
  · rintro t u (⟨w, hw, rfl⟩ | h)
    · exact .world (Onward.of_environment hw).now
    · exact .expiry h
  · obtain ⟨w, hw, hnow⟩ := service_step hs i
    rw [hw]
    exact .world hnow

end InvitationService.GuestMagicLink
