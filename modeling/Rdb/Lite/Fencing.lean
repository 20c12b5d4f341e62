import Rdb.Lite.Group

/-!
# Fencing tokens of ordered groups

An owner gets the epoch of the one it replaces plus one. A consumer that is released
takes the record of the queue along, and the next owner starts at 1.
`epochs_rise_iff`: the epochs rise with every change of the owner exactly if nobody
takes a queue that was released. A live lease is safe from `acquire` and from the sweep.
-/

namespace Rdb.Lite

open Lib Option

inductive QueueCall where
  | acquire (consumer : Bytes) (now leaseMs : Nat)
  | forceTakeover (consumer : Bytes) (now : Nat)
  | takeoverIfStale (consumer : Bytes) (now leaseMs : Nat)
  | releaseConsumer (consumer : Bytes)

def QueueCall.isRelease : QueueCall → Bool
  | releaseConsumer _ => true
  | _ => false

section

variable (s g : Bytes)

def QueueCall.run (owners : Owners) : QueueCall → Owners
  | acquire consumer now leaseMs => (Lite.acquire owners s g consumer now leaseMs).1
  | forceTakeover consumer now => (Lite.forceTakeover owners s g consumer now).1
  | takeoverIfStale consumer now leaseMs =>
    (Lite.takeoverIfStale owners s g consumer now leaseMs).1
  | releaseConsumer consumer => Lite.releaseConsumer owners s g consumer

def issue (top : Nat) (owners : Owners) : Nat := max top (((owners s g).map (·.epoch)).getD 0)

/-- Every change of the owner gives an epoch above all that were issued before. -/
def EpochsRise (owners : Owners) (top : Nat) : List QueueCall → Prop
  | [] => True
  | call :: calls =>
    (∀ o ∈ call.run s g owners s g, (owners s g).map (·.consumer) ≠ some o.consumer →
      top < o.epoch) ∧
    EpochsRise (call.run s g owners) (issue s g top (call.run s g owners)) calls

/-- Once the queue had an owner and was released there are only releases. -/
def NotRetaken (owners : Owners) (top : Nat) : List QueueCall → Prop
  | [] => True
  | call :: calls =>
    (owners s g = none → top ≠ 0 → call.isRelease) ∧
    NotRetaken (call.run s g owners) (issue s g top (call.run s g owners)) calls

end

variable {s g : Bytes} {owners : Owners} {top : Nat}

theorem QueueCall.run_owner {call : QueueCall} {o' : Owner}
    (h : call.run s g owners s g = some o') :
    (owners s g = none ∧ o'.epoch = 1) ∨ ∃ o, owners s g = some o ∧
      (o'.consumer = o.consumer ∧ o'.epoch = o.epoch ∨ o'.epoch = o.epoch + 1) := by
  cases ho : owners s g <;> cases call <;>
    simp only [run, Lite.acquire, Lite.forceTakeover, Lite.takeoverIfStale,
      Lite.releaseConsumer, ho] at h <;>
    (try split_ifs at h) <;> simp [update₂_apply, ho] at h <;> simp [← h]

theorem QueueCall.run_free {call : QueueCall} (ho : owners s g = none) :
    call.run s g owners s g = none ↔ call.isRelease := by
  cases call <;>
    simp [run, isRelease, Lite.acquire, Lite.forceTakeover, Lite.takeoverIfStale,
      Lite.releaseConsumer, ho, update₂_apply]

theorem epochsRise_iff_notRetaken (htop : ∀ o ∈ owners s g, o.epoch = top ∧ 1 ≤ top)
    (calls : List QueueCall) : EpochsRise s g owners top calls ↔ NotRetaken s g owners top calls := by
  induction calls generalizing owners top with
  | nil => exact Iff.rfl
  | cons call calls ih =>
    have hfree : (owners s g = none → top ≠ 0 → call.isRelease) ↔
        (owners s g = none → top ≠ 0 → call.run s g owners s g = none) :=
      forall_congr' fun ho => by rw [QueueCall.run_free ho]
    rw [EpochsRise, NotRetaken, issue, hfree]
    cases hx : call.run s g owners s g with
    | none => simpa [hx] using ih (by simp [hx])
    | some o' =>
      have hhead : (∀ o ∈ some o', (owners s g).map (·.consumer) ≠ some o.consumer →
          top < o.epoch) ↔ (owners s g = none → top ≠ 0 → some o' = none) := by
        obtain ⟨ho, hone⟩ | ⟨o, ho, hnext⟩ := QueueCall.run_owner hx
        · simp [ho, hone]
        · have := htop o ho
          simp only [mem_some_iff, forall_eq', ho, map_some]
          grind
      rw [hhead]
      refine and_congr_right fun h => ih fun o'' ho'' => ?_
      cases hx.symm.trans ho''
      obtain ⟨ho, hone⟩ | ⟨o, ho, hnext⟩ := QueueCall.run_owner hx
      · have := h ho
        simp_all
      · have := htop o ho
        simp only [map_some, getD_some]
        omega

theorem epochs_rise_iff (s g : Bytes) (calls : List QueueCall) :
    (EpochsRise s g (fun _ _ => none) 0 calls ↔ NotRetaken s g (fun _ _ => none) 0 calls) ∧
    ∀ owners o consumer now leaseMs, owners s g = some o → o.consumer ≠ consumer →
      leaseLive o.activeMs now leaseMs →
      acquire owners s g consumer now leaseMs = (owners, .busy o.epoch) ∧
      takeoverIfStale owners s g consumer now leaseMs = (owners, none) := by
  refine ⟨epochsRise_iff_notRetaken (by simp) calls, ?_⟩
  intro owners o consumer now leaseMs ho hne hlive
  simp [acquire, takeoverIfStale, ho, hne, hlive]

theorem released_epoch_issued_again : ¬ EpochsRise [115] [103] (fun _ _ => none) 0
    [.acquire [97] 0 5, .releaseConsumer [97], .acquire [98] 1 5] := by
  simp [EpochsRise, issue, QueueCall.run, acquire, releaseConsumer, update₂]

end Rdb.Lite
