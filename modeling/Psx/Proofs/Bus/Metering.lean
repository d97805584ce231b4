import Psx.Proofs.Bus.Core
import Psx.Proofs.Bus.Transfers

/-!
# Cycles handed to devices

A wait hands its cycles to the devices one after the other (`Bus.advanceCalls`), and nothing else
does: the reading of a device that counts the cycles it is given (`Device.Meter`) shows what those
calls add up to, and neither an access nor an instruction nor a slice moves it.
-/

namespace Psx

variable {δ : Type}

/-- The cycles that a part is given by some calls. -/
def Part.given (part : Part) (calls : List (Part × Nat)) : Nat :=
  ((calls.filter (·.1 = part)).map (·.2)).sum

namespace Part

variable {part : Part}

theorem given_cons (call : Part × Nat) (calls : List (Part × Nat)) :
    part.given (call :: calls) = (if call.1 = part then call.2 else 0) + part.given calls := by
  unfold given
  by_cases h : call.1 = part
  · rw [List.filter_cons_of_pos (by simpa using h), List.map_cons, List.sum_cons, if_pos h]
  · rw [List.filter_cons_of_neg (by simpa using h), if_neg h, Nat.zero_add]

theorem given_append (calls calls' : List (Part × Nat)) :
    part.given (calls ++ calls') = part.given calls + part.given calls' := by
  unfold given
  rw [List.filter_append, List.map_append, List.sum_append]

theorem given_eq_zero {parts : List Part} (h : part ∉ parts) (cycles : Nat) :
    part.given (parts.map fun p => (p, cycles)) = 0 := by
  induction parts with
  | nil => rfl
  | cons p parts ih =>
    have hne : ¬p = part := fun e => h (e ▸ List.mem_cons_self)
    rw [List.map_cons, given_cons, if_neg hne, Nat.zero_add]
    exact ih fun hm => h (List.mem_cons_of_mem _ hm)

theorem given_eq {parts : List Part} (hd : parts.Nodup) (h : part ∈ parts) (cycles : Nat) :
    part.given (parts.map fun p => (p, cycles)) = cycles := by
  induction parts with
  | nil => cases h
  | cons p parts ih =>
    obtain ⟨hp, hd⟩ := List.nodup_cons.1 hd
    rw [List.map_cons, given_cons]
    rcases List.mem_cons.1 h with rfl | h
    · rw [if_pos rfl, given_eq_zero hp, Nat.add_zero]
    · have hne : ¬p = part := fun e => hp (e ▸ h)
      rw [if_neg hne, Nat.zero_add]
      exact ih hd h

end Part

/-- The calls with which a bus hands cycles to its devices, in order. -/
def Bus.advanceCalls (b : Bus δ) (cycles : Nat) : List (Part × Nat) :=
  if cycles = 0 then [] else b.parts.map fun part => (part, cycles)

theorem Bus.given_advanceCalls {b : Bus δ} (hd : b.parts.Nodup) {part : Part} (h : part ∈ b.parts)
    (cycles : Nat) : part.given (b.advanceCalls cycles) = cycles := by
  unfold advanceCalls
  split
  · rename_i hz
    exact hz.symm
  · exact Part.given_eq hd h cycles

variable [Device δ]

/-! ### Meters -/

/-- A reading of a device that grows by the cycles it is given, and that nothing else changes. -/
structure Device.Meter (reading : δ → Nat) : Prop where
  read : ∀ d offset w, reading (Device.read d offset w).2 = reading d
  write : ∀ d offset w value, reading (Device.write d offset w value).2 = reading d
  consume : ∀ d channel word, reading (Device.consume d channel word).2 = reading d
  produce : ∀ d channel, reading (Device.produce d channel).2 = reading d
  advance : ∀ d cycles, reading (Device.advance d cycles).2 = reading d + cycles

namespace Board

variable {reading : δ → Nat}

def metered (reading : δ → Nat) (b : Board δ) (i : Nat) : Option Nat :=
  b.externals[i]?.map fun e => reading e.device

omit [Device δ] in
theorem metered_withExternal {b : Board δ} {i : Nat} {e : External δ} (he : b.externals[i]? = some e)
    (signals : List Signal) (device : δ) (j : Nat) :
    (b.withExternal i e signals device).metered reading j =
      if i = j then some (reading device) else b.metered reading j := by
  unfold withExternal metered
  rw [Array.getElem?_setIfInBounds]
  have hi : i < b.externals.size := (Array.getElem?_eq_some_iff.1 he).1
  by_cases hij : i = j
  · subst hij
    rw [if_pos rfl, if_pos hi, if_pos rfl]
    rfl
  · rw [if_neg hij, if_neg hij]

omit [Device δ] in
theorem metered_withExternal_same {b : Board δ} {i : Nat} {e : External δ}
    (he : b.externals[i]? = some e) {device : δ} (hd : reading device = reading e.device)
    (signals : List Signal) :
    (b.withExternal i e signals device).metered reading = b.metered reading := by
  funext j
  rw [metered_withExternal he, hd]
  split
  · rename_i hij
    subst hij
    unfold metered
    rw [he]
    rfl
  · rfl

variable (meter : Device.Meter reading) (b : Board δ) (part : Part)

include meter

theorem metered_read (offset : UInt32) (w : Width) :
    (b.read part offset w).2.metered reading = b.metered reading := by
  cases part with
  | «external» i =>
    unfold read
    dsimp only
    split
    · rfl
    · rename_i e he
      exact metered_withExternal_same he (meter.read ..) _
  | _ => rfl

theorem metered_write (offset : UInt32) (w : Width) (value : UInt32) :
    (b.write part offset w value).metered reading = b.metered reading := by
  cases part with
  | «external» i =>
    unfold write
    dsimp only
    split
    · rfl
    · rename_i e he
      exact metered_withExternal_same he (meter.write ..) _
  | _ => rfl

theorem metered_consume (channel : Nat) (word : UInt32) :
    (b.consume part channel word).metered reading = b.metered reading := by
  cases part with
  | «external» i =>
    unfold consume
    dsimp only
    split
    · rfl
    · rename_i e he
      exact metered_withExternal_same he (meter.consume ..) _
  | _ => rfl

theorem metered_produce (channel : Nat) :
    (b.produce part channel).2.metered reading = b.metered reading := by
  cases part with
  | «external» i =>
    unfold produce
    dsimp only
    split
    · rfl
    · rename_i e he
      exact metered_withExternal_same he (meter.produce ..) _
  | _ => rfl

theorem metered_advance (cycles j : Nat) :
    (b.advance cycles part).metered reading j =
      (b.metered reading j).map (· + if part = .external j then cycles else 0) := by
  by_cases hj : part = .external j
  · subst hj
    rw [if_pos rfl]
    unfold advance
    dsimp only
    split
    · rename_i he
      unfold metered
      rw [he]
      rfl
    · rename_i e he
      rw [metered_withExternal he, if_pos rfl, meter.advance]
      unfold metered
      rw [he]
      rfl
  · have hsame : (b.advance cycles part).metered reading j = b.metered reading j := by
      cases part with
      | «external» i =>
        have hij : ¬i = j := fun e => hj (e ▸ rfl)
        unfold advance
        dsimp only
        split
        · rfl
        · rename_i e he
          rw [metered_withExternal he, if_neg hij]
      | _ => rfl
    rw [if_neg hj, hsame]
    simp

/-- A meter shows the cycles that its device was given. -/
theorem metered_calls (calls : List (Part × Nat)) (j : Nat) :
    (calls.foldl (fun board call => board.advance call.2 call.1) b).metered reading j =
      (b.metered reading j).map (· + Part.given (.external j) calls) := by
  induction calls generalizing b with
  | nil => simp [Part.given]
  | cons call calls ih =>
    rw [List.foldl_cons, ih, metered_advance meter, Option.map_map, Part.given_cons]
    congr 1
    funext n
    exact Nat.add_assoc ..

end Board

namespace Bus

theorem advance_eq_calls (b : Bus δ) (cycles : Nat) :
    b.advance cycles = { b with
      board := (b.advanceCalls cycles).foldl (fun board call => board.advance call.2 call.1)
        b.board } := by
  unfold advance advanceCalls
  split
  · rfl
  · rw [eachPart_eq, List.foldl_map]

variable {reading : δ → Nat} (meter : Device.Meter reading) (b : Bus δ)

include meter

theorem metered_advance (cycles j : Nat) :
    (b.advance cycles).board.metered reading j =
      (b.board.metered reading j).map (· + Part.given (.external j) (b.advanceCalls cycles)) := by
  rw [advance_eq_calls]
  exact Board.metered_calls meter ..

theorem metered_read (address : UInt32) (w : Width) :
    (b.read address w).2.board.metered reading = b.board.metered reading := by
  have hdevice : ∀ physical,
      (b.readDevice physical w).2.board.metered reading = b.board.metered reading := by
    intro physical
    unfold readDevice
    split
    · rfl
    · exact Board.metered_read meter ..
  unfold read
  dsimp only
  split <;> first | rfl | exact hdevice _

theorem metered_write (address : UInt32) (w : Width) (value : UInt32) :
    (b.write address w value).board.metered reading = b.board.metered reading := by
  have hdevice : ∀ physical value,
      (b.writeDevice physical w value).board.metered reading = b.board.metered reading := by
    intro physical value
    unfold writeDevice
    split
    · rfl
    · exact Board.metered_write meter ..
  unfold write
  dsimp only
  split <;> first | rfl | exact hdevice _ _

theorem metered_dmaConsume (channel : Nat) (word : UInt32) :
    (b.dmaConsume channel word).board.metered reading = b.board.metered reading := by
  unfold dmaConsume
  split
  · rfl
  · exact Board.metered_consume meter ..

theorem metered_dmaProduce (channel : Nat) :
    (b.dmaProduce channel).2.board.metered reading = b.board.metered reading := by
  unfold dmaProduce
  split
  · rfl
  · exact Board.metered_produce meter ..

theorem metered_runSlice : b.runSlice.2.board.metered reading = b.board.metered reading := by
  have hmover : Mover fun a b' : Bus δ =>
      a = b' ∧ a.board.metered reading = b.board.metered reading := .of_kept
    (fun b' h address w => (b'.metered_read meter address w).trans h)
    (fun b' h address w value => (b'.metered_write meter address w value).trans h)
    (fun b' h channel word => (b'.metered_dmaConsume meter channel word).trans h)
    (fun b' h channel => (b'.metered_dmaProduce meter channel).trans h)
  exact (hmover.runSlice ⟨rfl, rfl⟩ rfl (fun h => by rw [h.1])
    fun h _ _ => ⟨by rw [h.1], h.2⟩).2.2

theorem metered_step (c : Cpu) : (c.step b).2.2.board.metered reading = b.board.metered reading := by
  have hkept : Simulation fun a b' : Bus δ =>
      a = b' ∧ a.board.metered reading = b.board.metered reading := .of_kept
    (fun b' h address w => (b'.metered_read meter address w).trans h)
    (fun b' h address w value => (b'.metered_write meter address w value).trans h)
  obtain ⟨cycles, c', a', b', ea, -, -, h⟩ := hkept.step ⟨rfl, rfl⟩ c
  rw [ea]
  exact h

end Bus

end Psx
