import Lloms.Feed.UringSafe

/-! Every byte that the kernel puts into a buffer is decoded once, in order, by the
connection it came on: whatever order the completions come in, the orders pushed for a
`Conn` are the frames of the bytes received into it, less what waits in its buffer. -/
namespace Lloms.Feed.UringLoop
open Lib

abbrev Ev := Event Loop Loop.Input Loop.Did

namespace Loop

def Did.bytesFor (p : Ptr) : Did → List UInt8
  | .delivered p' bytes => if p' = p then bytes else []
  | _ => []

def Did.ordersFor (p : Ptr) : Did → List Order
  | .pushed p' orders => if p' = p then orders else []
  | _ => []

/-- The bytes of all recvs into the buffer of `p`. -/
def deliveredTo (p : Ptr) (h : List Ev) : List UInt8 := h.flatMap fun e => e.output.bytesFor p

/-- The orders pushed for the connection at `p`. -/
def pushedFrom (p : Ptr) (h : List Ev) : List Order := h.flatMap fun e => e.output.ordersFor p

/-- The bytes that wait in the buffer of `p`. -/
def unread (s : Loop) (p : Ptr) : List UInt8 := ((s.view p).map Prod.snd).getD []

/-- What a stream says about the bytes received on it and the orders pushed from it. -/
def Tells (view : Option (List UInt8 × List UInt8)) (bytes : List UInt8) (orders : List Order) :
    Prop :=
  match view with
  | none => orders = frames bytes
  | some (carried, unread) => ∃ taken, bytes = taken ++ unread ∧ Decoded taken orders carried

/-- Each stream tells what happened on it, and nothing has happened on one to come. -/
structure Told (h : List Ev) (v : Streams) : Prop where
  tells : ∀ p, Tells (v.view p) (deliveredTo p h) (pushedFrom p h)
  fresh : ∀ {p}, v.fresh ≤ p → v.view p = none ∧ deliveredTo p h = [] ∧ pushedFrom p h = []

section Lemmas

variable {h : List Ev} {v v' : Streams} {e : Ev} {p : Ptr}

theorem deliveredTo_concat (h : List Ev) (e : Ev) (p : Ptr) :
    deliveredTo p (h ++ [e]) = deliveredTo p h ++ e.output.bytesFor p := by simp [deliveredTo]

theorem pushedFrom_concat (h : List Ev) (e : Ev) (p : Ptr) :
    pushedFrom p (h ++ [e]) = pushedFrom p h ++ e.output.ordersFor p := by simp [pushedFrom]

/-- It is enough to look at the one stream that a step is about. -/
theorem Told.step_at (ht : Told h v) (hfresh : v.fresh ≤ v'.fresh) (hlt : p < v'.fresh)
    (hother : ∀ p', p' ≠ p → v'.view p' = v.view p' ∧ e.output.bytesFor p' = [] ∧
      e.output.ordersFor p' = [])
    (hat : Tells (v'.view p) (deliveredTo p h ++ e.output.bytesFor p)
      (pushedFrom p h ++ e.output.ordersFor p)) : Told (h ++ [e]) v' where
  tells p' := by
    rw [deliveredTo_concat, pushedFrom_concat]
    by_cases hp : p' = p
    · subst hp
      exact hat
    · obtain ⟨hview, hbytes, horders⟩ := hother p' hp
      rw [hview, hbytes, horders, List.append_nil, List.append_nil]
      exact ht.tells p'
  fresh {p'} hle := by
    have hne : p' ≠ p := fun heq => absurd hlt (Nat.not_lt.mpr (heq ▸ hle))
    obtain ⟨hview, hbytes, horders⟩ := hother p' hne
    obtain ⟨hnone, hnil, hnil'⟩ := ht.fresh (Nat.le_trans hfresh hle)
    rw [deliveredTo_concat, pushedFrom_concat, hview, hbytes, horders, hnone, hnil, hnil']
    exact ⟨rfl, rfl, rfl⟩

/-- A step about no stream. -/
theorem Told.step_quiet (ht : Told h v) (hfresh : v.fresh ≤ v'.fresh) (hview : v'.view = v.view)
    (hquiet : ∀ p, e.output.bytesFor p = [] ∧ e.output.ordersFor p = []) : Told (h ++ [e]) v' where
  tells p := by
    rw [deliveredTo_concat, pushedFrom_concat, hview, (hquiet p).1, (hquiet p).2, List.append_nil,
      List.append_nil]
    exact ht.tells p
  fresh {p} hle := by
    rw [deliveredTo_concat, pushedFrom_concat, hview, (hquiet p).1, (hquiet p).2, List.append_nil,
      List.append_nil]
    exact ht.fresh (Nat.le_trans hfresh hle)

theorem Told.lt_fresh (ht : Told h v) {x : List UInt8 × List UInt8} (hp : v.view p = some x) :
    p < v.fresh := by
  refine Nat.lt_of_not_le fun hle => ?_
  rw [(ht.fresh hle).1] at hp
  cases hp

theorem Told.step (ht : Told h v) (hmoves : Moves v e.output v') : Told (h ++ [e]) v' := by
  obtain ⟨pre, input, did, post⟩ := e
  change Moves v did v' at hmoves
  cases hmoves with
  | idle hfresh => exact ht.step_quiet hfresh rfl fun p => ⟨rfl, rfl⟩
  | accepted hfresh =>
    refine ht.step_at (p := v.fresh) (Nat.le_of_lt hfresh) hfresh
      (fun p' hp => ⟨Function.update_of_ne hp _ _, rfl, rfl⟩) ?_
    obtain ⟨-, hbytes, horders⟩ := ht.fresh (Nat.le_refl v.fresh)
    rw [hbytes, horders]
    simp only [Function.update_self]
    exact ⟨[], rfl, decoded_nil⟩
  | @received p carried data hp =>
    refine ht.step_at (p := p) (Nat.le_refl _) (ht.lt_fresh hp)
      (fun p' hne => ⟨Function.update_of_ne hne _ _, if_neg hne.symm, rfl⟩) ?_
    have htells := ht.tells p
    rw [hp] at htells
    obtain ⟨taken, hbytes, hdecoded⟩ := htells
    simp only [Function.update_self, Did.bytesFor, Did.ordersFor, if_true, List.append_nil]
    exact ⟨taken, by rw [hbytes, List.append_nil], hdecoded⟩
  | @tookIn p fresh carried data hp hfresh =>
    refine ht.step_at (p := p) hfresh (Nat.lt_of_lt_of_le (ht.lt_fresh hp) hfresh)
      (fun p' hne => ⟨Function.update_of_ne hne _ _, rfl, if_neg hne.symm⟩) ?_
    have htells := ht.tells p
    rw [hp] at htells
    obtain ⟨taken, hbytes, hdecoded⟩ := htells
    simp only [Function.update_self, Did.bytesFor, Did.ordersFor, if_true, List.append_nil]
    exact ⟨taken ++ data, by rw [hbytes, List.append_nil], hdecoded.takeIn data⟩
  | retried hfresh => exact ht.step_quiet hfresh rfl fun p => ⟨rfl, ite_self _⟩
  | @ended p fresh carried hp hfresh =>
    refine ht.step_at (p := p) hfresh (Nat.lt_of_lt_of_le (ht.lt_fresh hp) hfresh)
      (fun p' hne => ⟨Function.update_of_ne hne _ _, rfl, if_neg hne.symm⟩) ?_
    have htells := ht.tells p
    rw [hp] at htells
    obtain ⟨taken, hbytes, hdecoded⟩ := htells
    simp only [Function.update_self, Did.bytesFor, Did.ordersFor, if_true, List.append_nil]
    rw [hbytes, List.append_nil]
    exact hdecoded.orders_eq
  | late orders => exact ht.step_quiet (Nat.le_refl _) rfl fun p => ⟨rfl, rfl⟩

end Lemmas

theorem told_start : Told [] start.streams := by
  have hnone : ∀ p, start.streams.view p = none := fun p => rfl
  refine ⟨fun p => ?_, fun {p} _ => ⟨hnone p, rfl, rfl⟩⟩
  rw [hnone p]
  exact decoded_nil.orders_eq

/-- When every completion was looked at, no bytes wait. -/
theorem unread_of_cq_nil {s : Loop} (hcq : s.cq = []) (p : Ptr) : s.unread p = [] := by
  have hnone : s.waiting p = 0 := waiting_of_not fun e he => by simp [hcq] at he
  rw [unread, view, hnone]
  cases s.connAt p <;> rfl

/-- In a run with at most 255 connections open at a time, the orders pushed for a
connection are the frames of the bytes received on it, up to those that wait in its
buffer, and the bytes carried over are those behind the last frame. -/
theorem decodes_what_was_received (is : List Input)
    (hfits : ∀ e ∈ trace step start is, e.pre.Fits e.input) (p : Ptr) :
    let s := exec step start is
    let h := trace step start is
    (s.cq = [] → s.unread p = []) ∧
      ∃ taken, deliveredTo p h = taken ++ s.unread p ∧ pushedFrom p h = frames taken ∧
        ∀ c, s.connAt p = some c → c.partialBytes = leftover taken := by
  intro s h
  refine ⟨fun hcq => unread_of_cq_nil hcq p, ?_⟩
  have hrun : Safe s ∧ Told h s.streams :=
    history_induction step (I := fun h s => Safe s ∧ Told h s.streams)
      (fun h s i hfits hold => ⟨(hold.1.step hfits).1, hold.2.step (hold.1.step hfits).2⟩) start
      ⟨safe_start, told_start⟩ is hfits
  have htells := hrun.2.tells p
  cases hc : s.connAt p with
  | none =>
    have hview : s.view p = none := by rw [view, hc]; rfl
    rw [show s.streams.view p = none from hview] at htells
    refine ⟨deliveredTo p h, ?_, htells, fun c hc' => by cases hc'⟩
    rw [unread, hview]
    exact (List.append_nil _).symm
  | some c =>
    have hview := view_eq hc
    rw [show s.streams.view p = _ from hview] at htells
    obtain ⟨taken, hbytes, hdecoded⟩ := htells
    refine ⟨taken, ?_, hdecoded.orders_eq, fun c' hc' => ?_⟩
    · rw [unread, hview]
      exact hbytes
    · rw [← Option.some.inj hc']
      exact hdecoded.buf_eq

theorem decodes_what_was_received_session :
    let s := exec step start session
    let h := trace step start session
    (s.cq = [] → s.unread 1 = []) ∧
      ∃ taken, deliveredTo 1 h = taken ++ s.unread 1 ∧ pushedFrom 1 h = frames taken ∧
        ∀ c, s.connAt 1 = some c → c.partialBytes = leftover taken :=
  decodes_what_was_received session (by decide) 1

end Loop

end Lloms.Feed.UringLoop
