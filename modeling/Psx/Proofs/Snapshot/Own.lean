import Mathlib.Algebra.Order.BigOperators.Group.List
import Psx.Proofs.Machine.PowerCycle
import Psx.Proofs.Snapshot.Admission

/-!
# A session and its own snapshot

A session of the core that is given its own snapshot is the session that it was, whether it takes the
snapshot or refuses it, and the one reason to refuse it is the allowance (`Reachable.restore_own`).
The allowance suffices as long as few words have been captured and the line that is being printed is
short. But the queue of the video port takes as many words as it is configured for, and each of them
claims the bytes that it is saved in. A guest that writes some millions of them leaves a session that
refuses its own snapshot (`restore_own_flooded`).
-/

namespace Psx

open Snapshot

/-! ### Claims -/

theorem Snapshot.Law.claims_le_claimsAll {α : Type} {c : Codec α} (l : Law c) {as : List α} {a : α}
    (h : a ∈ as) : l.claims a ≤ l.claimsAll as :=
  List.single_le_sum (fun _ _ => Nat.zero_le _) _ (List.mem_map_of_mem h)

/-- What a scheduler with the events of a session claims is little. -/
theorem Machine.claims_scheduler {s : Scheduler} (hn : s.names = scheduler₀.names) :
    Scheduler.law.claims s ≤ 1048576 := by
  have hshort : ∀ name ∈ scheduler₀.names.toList, name.toUTF8.size ≤ 64 := by decide +kernel
  have hcount : s.events.toList.length = 2 := by
    have hsize := congrArg Array.size hn
    rw [Scheduler.names, Scheduler.names, Array.size_map, Array.size_map] at hsize
    rwa [Array.length_toList]
  have hevent : ∀ e ∈ s.events.toList, Scheduler.Event.law.claims e ≤ 81 := by
    intro e he
    have hname : e.name.toUTF8.size ≤ 64 := by
      refine hshort e.name ?_
      rw [← hn, Scheduler.names, Array.toList_map]
      exact List.mem_map_of_mem he
    have hdue : Law.nat64.option.claims e.due ≤ 9 := by
      cases e.due with
      | none => decide
      | some due => exact Nat.le_refl 9
    show 8 + e.name.toUTF8.size + Law.nat64.option.claims e.due ≤ 81
    omega
  have hall := Law.claimsAll_le hevent
  rw [hcount] at hall
  show 8 + (8 + Scheduler.Event.law.claimsAll s.events.toList) ≤ 1048576
  omega

namespace Machine

variable {δ : Type} [Device δ] {config : SessionConfig} {m : Machine δ}

/-- A session claims the bytes in which its captured words are saved. -/
theorem captured_le_claims_of (m : Machine δ) (ht : m.bus.table = coreTable) (hf : m.bus.board.Fits .gpu) :
    (Law.word32.bytesAll m.bus.board.gpu.queue.words.toList).length ≤
      Session.law.claims m.capture := by
  generalize hwords : Law.word32.bytesAll m.bus.board.gpu.queue.words.toList = words
  have himage : words.length ≤ (Gpu.law.image m.bus.board.gpu).length := by
    rw [← hwords]
    show _ ≤ (_ ++ (_ ++ (_ ++ (((_ ++ Law.word32.bytesAll _) ++ _) ++ _)))).length
    simp only [List.length_append]
    omega
  have hsize : (m.bus.board.save .gpu).size = (Gpu.law.image m.bus.board.gpu).length := by
    rw [← Gpu.law.encode_eq hf]
    exact Array.length_toList.symm
  have hmem : (Gpu.name, m.bus.board.save .gpu) ∈ m.bus.saveDevices := by
    have hentry : ∃ e ∈ coreTable.entries.toList, e.name = Gpu.name ∧ e.part = .gpu := by decide
    obtain ⟨e, he, hname, hpart⟩ := hentry
    unfold Bus.saveDevices
    rw [ht, ← hname, ← hpart]
    exact List.mem_map_of_mem (f := fun e => (e.name, m.bus.board.save e.part)) he
  have hdevice := (Law.text.pair Law.bytes).claims_le_claimsAll hmem
  have hbytes : 8 + Gpu.name.toUTF8.size + (8 + (m.bus.board.save .gpu).size) ≤
    (Law.text.pair Law.bytes).claimsAll m.bus.saveDevices := hdevice
  have htotal := m.claims_capture
  omega

omit [Device δ] in
theorem adopt_self (m : Machine δ) : m.adopt m = m := rfl

/-- A session of the core has none of its own snapshot if that claims too much. Otherwise it takes it,
and is the session that it was. -/
theorem Reachable.restore_snapshot_self (h : m.Reachable { config }) : m.restore m.snapshot =
    (if Session.law.claims m.capture ≤ allowance then none else some Board.malformed, m) := by
  have hbare : ∀ device : δ, ¬({ config } : Surroundings δ).attaches device := fun _ h => h
  have hparts : m.bus.parts = Part.core := Bus.parts_of_table (h.laid.bare hbare)
  rw [restore_snapshot h.fits (h.inStep (.inr hbare)) rfl hparts h.laid.sizes rfl]
  split
  · rw [adopt_self]
  · rfl

theorem Reachable.captured_le_claims (h : m.Reachable { config }) :
    (Law.word32.bytesAll m.bus.board.gpu.queue.words.toList).length ≤
      Session.law.claims m.capture := by
  have htable : m.bus.table = coreTable := h.laid.bare fun _ h => h
  exact m.captured_le_claims_of htable (h.fits.chips .gpu (by rw [Bus.parts_of_table htable]; decide))

/-- A session of the core that is given its own snapshot is left as it is. It takes the snapshot if
and only if that claims no more than the allowance: always so for a few captured words and a short
line, and never for words that alone exceed it. -/
theorem Reachable.restore_own (h : m.Reachable { config }) :
    m.restore m.snapshot =
        (if Session.law.claims m.capture ≤ allowance then none else some Board.malformed, m) ∧
      (m.bus.board.gpu.queue.words.size ≤ 131072 → m.bus.board.expansion.line.toUTF8.size ≤ 524288 →
        m.restore m.snapshot = (none, m)) ∧
      (allowance < (Law.word32.bytesAll m.bus.board.gpu.queue.words.toList).length →
        m.restore m.snapshot = (some Board.malformed, m)) := by
  have hbare : ∀ device : δ, ¬({ config } : Surroundings δ).attaches device := fun _ h => h
  refine ⟨h.restore_snapshot_self, fun hwords hline => ?_, fun hwords => ?_⟩
  · have hsound := h.sound hbare fun _ ho => absurd ho id
    have hclaims := claims_le (h.laid.bare hbare) h.fits h.laid.sizes hsound.cpu.lines
      (claims_scheduler h.remembers.names) hwords hline
    rw [h.restore_snapshot_self, if_pos hclaims]
  · have hclaims := h.captured_le_claims
    rw [h.restore_snapshot_self, if_neg (by omega)]

/-- The case of a session that has just been built. -/
theorem restore_own_fresh :
    (fresh {} : Machine Empty).restore (fresh {} : Machine Empty).snapshot = (none, fresh {}) := by
  have hr : (fresh {} : Machine Empty).Reachable { config := {} } :=
    reachable_fresh ⟨by decide, by decide⟩
  exact hr.restore_own.2.1 (Nat.zero_le _) (show "".toUTF8.size ≤ 524288 by decide)

end Machine

/-! ### A flooded queue -/

/-- A word of ones is captured if there is room, and does nothing else. -/
theorem Gpu.writeGp0_ones {g : Gpu} (hidle : g.packet = .idle)
    (hroom : g.queue.words.size < g.queue.capacity) :
    g.writeGp0 0xFFFFFFFF = ([], { g with queue.words := g.queue.words.push 0xFFFFFFFF }) := by
  have hpush : g.queue.push 0xFFFFFFFF =
      { g.queue with words := g.queue.words.push 0xFFFFFFFF } := by
    unfold CommandQueue.push CommandQueue.size
    rw [if_neg (Nat.not_le.2 hroom)]
  have hfeed : Packet.feed 0xFFFFFFFF .idle = (.idle, .execute 0xFF 0xFFFFFFFF) := by decide
  unfold writeGp0 frame
  rw [hpush]
  dsimp only
  rw [hidle, hfeed, ← hidle]
  rfl

/-- A word written to the drawing port of a session of the core. -/
theorem Bus.write_gp0 {δ : Type} [Device δ] {b : Bus δ} (ht : b.table = coreTable) (word : UInt32) :
    b.write Gpu.base .word word = { b with board := b.board.write .gpu 0 .word word } := by
  have hregion : Address.region (Width.word.align Gpu.base) = .io := by decide
  have hlookup : coreTable.lookup? (Address.translate (Width.word.align Gpu.base)) =
      some (.gpu, 0) := by decide
  have hword : word &&& Width.word.mask = word := UInt32.and_neg_one
  unfold write writeDevice
  dsimp only
  rw [hregion, ht, hlookup, hword]

namespace Machine

variable {δ : Type} [Device δ] {m : Machine δ}

/-- The session with other words captured. -/
def withWords (m : Machine δ) (words : Array UInt32) : Machine δ :=
  { m with bus.board.gpu.queue.words := words }

def flood (m : Machine δ) : Machine δ := m.perform (.write Gpu.base .word 0xFFFFFFFF)

theorem flood_withWords (ht : m.bus.table = coreTable) (hidle : m.bus.board.gpu.packet = .idle)
    {n : Nat} (hroom : n < m.bus.board.gpu.queue.capacity) :
    (m.withWords (.replicate n 0xFFFFFFFF)).flood =
      m.withWords (.replicate (n + 1) 0xFFFFFFFF) := by
  let g := (m.withWords (.replicate n 0xFFFFFFFF)).bus.board.gpu
  have htable : (m.withWords (.replicate n 0xFFFFFFFF)).bus.table = coreTable := ht
  have hsize : g.queue.words.size < g.queue.capacity := by
    show (Array.replicate n (0xFFFFFFFF : UInt32)).size < _
    rwa [Array.size_replicate]
  have hwrite : g.write 0 0xFFFFFFFF = _ := Gpu.writeGp0_ones (g := g) hidle hsize
  unfold flood perform
  dsimp only
  rw [Bus.write_gp0 htable]
  unfold Board.write
  dsimp only
  rw [hwrite]
  unfold withWords
  rw [Array.replicate_succ]
  rfl

/-- The words that a session has captured fit, if there are not more than can be counted. -/
theorem fits_withWords (hf : m.Fits) (ht : m.bus.table = coreTable) (hm : m.bus.memory.hasSizes = true)
    (hc : m.cpu.cache.lines.size = 1024) {words : Array UInt32}
    (hroom : 576 + words.size * 9 + m.bus.board.expansion.line.toUTF8.size < 256 ^ 8) :
    (m.withWords words).Fits := by
  have hparts : m.bus.parts = Part.core := Bus.parts_of_table ht
  have hchips : ∀ p ∈ Part.core, (m.withWords words).bus.board.Fits p := by
    intro p hp
    have hold := hf.chips p (by rwa [hparts])
    cases p with
    | gpu =>
      obtain ⟨hstatus, hdisplay, henvironment, hqueue, hrest⟩ := hold
      exact ⟨hstatus, hdisplay, henvironment, ⟨⟨show words.size < 256 ^ 8 by omega,
        fun _ _ => trivial⟩, hqueue.2⟩, hrest⟩
    | _ => exact hold
  have hcount : (m.withWords words).bus.saveDevices.length < 256 := by
    unfold Bus.saveDevices
    rw [show (m.withWords words).bus.table = coreTable from ht]
    show 6 < 256
    decide
  refine fits_of (m := m.withWords words) hc hm hf.session.2.2.2.1 (fun p hp => hchips p ?_) hcount
    fun x hx => ?_
  · rwa [← hparts]
  · exact Nat.lt_of_le_of_lt (saveDevices_size_le (m := m.withWords words) ht hchips x hx) hroom

/-- As many words of ones are captured as are written, up to the capacity of the queue. -/
theorem reachable_flooded {config : SessionConfig} (hf : config.Fits) {n : Nat}
    (hn : n ≤ config.gpuFifoCapacity) (hlast : n ≤ 10000000) :
    ((fresh config : Machine δ).withWords (.replicate n 0xFFFFFFFF)).Reachable { config } := by
  induction n with
  | zero => exact reachable_fresh hf
  | succ n ih =>
    have hroom : n < (fresh config : Machine δ).bus.board.gpu.queue.capacity :=
      Nat.lt_of_lt_of_le hn (Nat.le_max_left ..)
    have hfits : ((fresh config : Machine δ).withWords (.replicate (n + 1) 0xFFFFFFFF)).Fits :=
      fits_withWords (fits_powerOn hf (fresh_eq config)) rfl Memory.hasSizes_initial
        Cpu.sound_initial.lines (by
          rw [Array.size_replicate]
          show 576 + (n + 1) * 9 + "".toUTF8.size < 256 ^ 8
          have : "".toUTF8.size = 0 := by decide
          omega)
    have hflood := flood_withWords (m := (fresh config : Machine δ)) rfl rfl hroom
    rw [← hflood] at hfits ⊢
    exact .perform _ (ih (by omega) (by omega)) hfits

theorem ones_length (n : Nat) :
    (Law.word32.bytesAll (Array.replicate n (0xFFFFFFFF : UInt32)).toList).length = n * 5 := by
  have hword : (Law.word32.image 0xFFFFFFFF).length = 5 := by decide
  unfold Law.bytesAll
  rw [Array.toList_replicate, List.length_flatMap, List.map_replicate, hword,
    List.sum_replicate_nat]

/-- A queue with room for four million words. -/
def roomy : SessionConfig := { gpuFifoCapacity := 4000000 }

/-- Of three and a half million captured words the session makes a snapshot that it refuses. -/
theorem restore_own_flooded : ∃ m : Machine Empty,
    m.Reachable { config := roomy } ∧ m.restore m.snapshot = (some Board.malformed, m) := by
  have hr : ((fresh roomy : Machine Empty).withWords (.replicate 3500000 0xFFFFFFFF)).Reachable
      { config := roomy } := reachable_flooded ⟨by decide, by decide⟩ (by decide) (by decide)
  have hclaims : 3500000 * 5 ≤ _ := (ones_length 3500000).ge.trans hr.captured_le_claims
  have hlarge : allowance < 3500000 * 5 := by decide
  exact ⟨_, hr, by rw [hr.restore_snapshot_self, if_neg (by omega)]⟩

end Machine

end Psx
