import Psx.Proofs.Machine.Sound

/-!
# What a session claims

A snapshot is refused when its fields claim more than the allowance, and that is the only reason why
a session would not take back its own (`Machine.restore_snapshot`). `Law.Takes` bounds what a value
claims and how many bytes it is written in. But for the queue of the video port and the line that the
boot program is printing, every chip takes a bounded number of bytes whatever its state
(`Board.save_size_le`), so that a sound session of the core stays within the allowance as long as
these two do not run to a million words or characters (`Machine.claims_le`).
-/

namespace Psx

open Snapshot

namespace Snapshot.Law

variable {α β : Type} {c : Codec α} {d : Codec β}

theorem claimsAll_le {l : Law c} {as : List α} {k : Nat} (h : ∀ a ∈ as, l.claims a ≤ k) :
    l.claimsAll as ≤ as.length * k := by
  induction as with
  | nil => exact Nat.zero_le _
  | cons a as ih =>
    have hrest := ih fun b hb => h b (List.mem_cons_of_mem a hb)
    show l.claims a + l.claimsAll as ≤ _
    rw [List.length_cons, Nat.succ_mul, Nat.add_comm]
    exact Nat.add_le_add hrest (h a List.mem_cons_self)

theorem bytesAll_length_le {l : Law c} {as : List α} {n : Nat}
    (h : ∀ a ∈ as, (l.image a).length ≤ n) : (l.bytesAll as).length ≤ as.length * n := by
  induction as with
  | nil => exact Nat.zero_le _
  | cons a as ih =>
    have hrest := ih fun b hb => h b (List.mem_cons_of_mem a hb)
    show (l.image a ++ l.bytesAll as).length ≤ _
    rw [List.length_append, List.length_cons, Nat.succ_mul, Nat.add_comm]
    exact Nat.add_le_add hrest (h a List.mem_cons_self)

/-- The value claims no more than `k` and is written in no more than `n` bytes. -/
structure Takes (l : Law c) (a : α) (k n : Nat) : Prop where
  claims : l.claims a ≤ k
  size : (l.image a).length ≤ n

namespace Takes

variable {l : Law c} {l' : Law d} {a : α} {k n k' n' : Nat}

theorem mono (h : l.Takes a k n) (hk : k ≤ k') (hn : n ≤ n') : l.Takes a k' n' :=
  ⟨h.claims.trans hk, h.size.trans hn⟩

theorem natBytes_length_le (value : Nat) : (natBytes value).length ≤ 9 := by
  unfold natBytes
  split_ifs <;> simp [rawBytes_length]

theorem number {size : Nat} (hs : size = 2 ∨ size = 4 ∨ size = 8) (value : Nat) :
    (Law.number hs).Takes value size 9 := ⟨Nat.le_refl _, natBytes_length_le value⟩

theorem word16 (w : UInt16) : Law.word16.Takes w 2 9 := ⟨Nat.le_refl _, natBytes_length_le _⟩

theorem word32 (w : UInt32) : Law.word32.Takes w 4 9 := ⟨Nat.le_refl _, natBytes_length_le _⟩

theorem nat16 (value : Nat) : Law.nat16.Takes value 2 9 := number _ value

theorem nat32 (value : Nat) : Law.nat32.Takes value 4 9 := number _ value

theorem nat64 (value : Nat) : Law.nat64.Takes value 8 9 := number _ value

theorem byte (b : UInt8) : Law.byte.Takes b 1 1 := ⟨Nat.le_refl _, Nat.le_refl _⟩

theorem bool (b : Bool) : Law.bool.Takes b 1 1 := ⟨Nat.le_refl _, Nat.le_refl _⟩

theorem pair {p : α × β} (h : l.Takes p.1 k n) (h' : l'.Takes p.2 k' n') :
    (l.pair l').Takes p (k + k') (n + n') :=
  ⟨Nat.add_le_add h.claims h'.claims, by
    show (l.image p.1 ++ l'.image p.2).length ≤ _
    rw [List.length_append]
    exact Nat.add_le_add h.size h'.size⟩

theorem imap {view : β → α} {make : α → β} {hm : ∀ b, make (view b) = b} {b : β}
    (h : l.Takes (view b) k n) : (l.imap view make hm).Takes b k n := ⟨h.claims, h.size⟩

theorem vector {N : Nat} {v : Vector α N} (h : ∀ a, l.Takes a k n) :
    (l.vector N).Takes v (N * k) (N * n) := by
  have hc : l.claimsAll v.toList ≤ _ := claimsAll_le fun a _ => (h a).claims
  have hs : (l.bytesAll v.toList).length ≤ _ := bytesAll_length_le fun a _ => (h a).size
  rw [Vector.length_toList] at hc hs
  exact ⟨hc, hs⟩

theorem array {as : Array α} (h : ∀ a, l.Takes a k n) :
    l.array.Takes as (8 + as.size * k) (9 + as.size * n) := by
  have hc : l.claimsAll as.toList ≤ _ := claimsAll_le fun a _ => (h a).claims
  have hs : (l.bytesAll as.toList).length ≤ _ := bytesAll_length_le fun a _ => (h a).size
  rw [Array.length_toList] at hc hs
  refine ⟨Nat.add_le_add_left hc 8, ?_⟩
  show (natBytes as.size ++ l.bytesAll as.toList).length ≤ _
  rw [List.length_append]
  exact Nat.add_le_add (natBytes_length_le _) hs

theorem option {o : Option α} (h : ∀ a, l.Takes a k n) : l.option.Takes o (1 + k) (1 + n) := by
  cases o with
  | none => exact ⟨Nat.le_add_right 1 k, Nat.le_add_right 1 n⟩
  | some a => exact ⟨Nat.add_le_add_left (h a).claims 1, by
      show (l.image a).length + 1 ≤ _
      rw [Nat.add_comm]
      exact Nat.add_le_add_left (h a).size 1⟩

theorem bytes (b : ByteArray) : Law.bytes.Takes b (8 + b.size) (9 + b.size) := by
  refine ⟨Nat.le_refl _, ?_⟩
  show (natBytes b.size ++ b.data.toList).length ≤ _
  rw [List.length_append, Array.length_toList]
  exact Nat.add_le_add_right (natBytes_length_le _) _

theorem text (s : String) : Law.text.Takes s (8 + s.toUTF8.size) (9 + s.toUTF8.size) :=
  ⟨(bytes s.toUTF8).claims, (bytes s.toUTF8).size⟩

/-- The number of the alternative takes four of what is claimed and nine of the bytes. -/
theorem choice {number : α → Nat} {fields : α → ByteArray → ByteArray}
    {get : Nat → Snapshot.Get α} {fits : α → Prop} {claims : α → Nat} {image : α → List UInt8}
    {hn put hget} (hk : 4 + claims a ≤ k) (hs : 9 + (image a).length ≤ n) :
    (@Law.choice α number fields get fits claims image hn put hget).Takes a k n := by
  refine ⟨hk, ?_⟩
  show (natBytes (number a) ++ image a).length ≤ _
  have := natBytes_length_le (number a)
  rw [List.length_append]
  omega

end Takes

end Snapshot.Law

/-! ### Chips -/

open Snapshot.Law (Takes)

theorem InterruptController.takes (i : InterruptController) : law.Takes i 4 18 :=
  .imap (.pair (.word16 _) (.word16 _))

theorem Timer.Mode.takes (m : Mode) : law.Takes m 8 8 :=
  .imap (.pair (.bool _) (.pair (.byte _) (.pair (.bool _) (.pair (.bool _) (.pair (.bool _)
    (.pair (.bool _) (.pair (.bool _) (.byte _))))))))

theorem Timer.Channel.takes (ch : Channel) : law.Takes ch 27 42 :=
  .imap (.pair (.word16 _) (.pair (Mode.takes _) (.pair (.word16 _) (.pair (.byte _)
    (.pair (.bool _) (.pair (.bool _) (.pair (.bool _) (.pair (.bool _) (.pair (.bool _)
    (.pair (.bool _) (.nat64 _)))))))))))

theorem Timers.takes (t : Timers) : law.Takes t 85 135 :=
  .imap (.pair (.vector Timer.Channel.takes) (.word32 _))

theorem Dma.Progress.takes (p : Progress) : law.Takes p 12 27 := by
  have hn := fun value => Nat.add_le_add_left (Takes.natBytes_length_le value) 9
  cases p with
  | blocks wordsLeft blocksLeft =>
    have h := (Takes.nat32 wordsLeft).pair (p := (wordsLeft, blocksLeft)) (.nat32 blocksLeft)
    exact .choice (Nat.le_refl _) (Nat.add_le_add_left h.size 9)
  | linkedList => exact .choice (by decide) (by decide)
  | orderingTable entries =>
    exact .choice (show 4 + 4 ≤ 12 by decide) ((hn entries).trans (by decide))

theorem Dma.Channel.takes (ch : Channel) : law.Takes ch 26 56 :=
  .imap (.pair (.word32 _) (.pair (.word32 _) (.pair (.word32 _) (.pair (.byte _)
    (.option Progress.takes)))))

theorem Dma.takes (d : Dma) : law.Takes d 194 419 :=
  .imap (.pair (.vector Channel.takes) (.pair (.word32 _) (.pair (.word32 _) (.nat32 _))))

theorem VideoStandard.takes (s : VideoStandard) : law.Takes s 4 9 :=
  ⟨Nat.le_refl _, Takes.natBytes_length_le _⟩

theorem Gpu.Status.takes (s : Status) : law.Takes s 15 22 :=
  .imap (.pair (.word16 _) (.pair (.bool _) (.pair (.bool _) (.pair (.bool _) (.pair (.byte _)
    (.pair (.bool _) (.pair (.bool _) (.pair (.bool _) (.pair (.bool _) (.pair (.bool _)
    (.pair (.bool _) (.pair (.bool _) (.pair (.bool _) (.byte _))))))))))))))

theorem Gpu.DisplayArea.takes (a : DisplayArea) : law.Takes a 12 54 :=
  .imap (.pair (.word16 _) (.pair (.word16 _) (.pair (.word16 _) (.pair (.word16 _)
    (.pair (.word16 _) (.word16 _))))))

theorem Gpu.Environment.takes (e : Environment) : law.Takes e 16 36 :=
  .imap (.pair (.word32 _) (.pair (.word32 _) (.pair (.word32 _) (.word32 _))))

theorem Gpu.CommandQueue.takes (q : CommandQueue) :
    law.Takes q (8 + q.words.size * 4 + 16) (9 + q.words.size * 9 + 18) :=
  .imap (.pair (.array .word32) (.pair (.nat64 _) (.nat64 _)))

theorem Gpu.Packet.takes (p : Packet) : law.Takes p 9 19 := by
  have hn := fun value => Nat.add_le_add_left (Takes.natBytes_length_le value) 9
  cases p with
  | idle => exact .choice (by decide) (by decide)
  | command opcode remaining =>
    have h := (Takes.byte opcode).pair (p := (opcode, remaining)) (.nat32 remaining)
    exact .choice (Nat.le_refl _) (Nat.add_le_add_left h.size 9)
  | polyline mandatory =>
    exact .choice (show 4 + 4 ≤ 9 by decide) ((hn mandatory).trans (by decide))
  | imageData remaining =>
    exact .choice (show 4 + 4 ≤ 9 by decide) ((hn remaining).trans (by decide))

theorem Gpu.Beam.takes (b : Beam) : law.Takes b 20 38 :=
  .imap (.pair (VideoStandard.takes _) (.pair (.nat16 _) (.pair (.nat32 _) (.pair (.nat64 _)
    (.pair (.bool _) (.bool _))))))

theorem Gpu.takes (g : Gpu) :
    law.Takes g (108 + g.queue.words.size * 4) (223 + g.queue.words.size * 9) := by
  have h : law.Takes g _ _ := .imap (.pair (Status.takes _) (.pair (DisplayArea.takes _)
    (.pair (Environment.takes _) (.pair (CommandQueue.takes _) (.pair (Packet.takes _)
    (.pair (.word32 _) (.pair (.nat32 _) (.pair (VideoStandard.takes _) (Beam.takes _)))))))))
  exact h.mono (by dsimp only; omega) (by dsimp only; omega)

theorem MemoryControl.takes (m : MemoryControl) : law.Takes m 40 90 :=
  .imap (.pair (.vector .word32) (.word32 _))

theorem Expansion.takes (e : Expansion) :
    law.Takes e (1 + (8 + e.line.toUTF8.size)) (1 + (9 + e.line.toUTF8.size)) :=
  .imap (.pair (.byte _) (.text _))

theorem Cpu.takes (cpu : Cpu) :
    law.Takes cpu (302 + cpu.cache.lines.size * 9) (655 + cpu.cache.lines.size * 19) := by
  have hline : ∀ l : CacheLine, CacheLine.law.Takes l 9 19 := fun l =>
    .imap (.pair (.word32 _) (.pair (.word32 _) (.bool _)))
  have hload : ∀ l : DelayedLoad, DelayedLoad.law.Takes l 5 10 := fun l =>
    .imap (.pair (.byte _) (.word32 _))
  have hcache : InstructionCache.law.Takes cpu.cache _ _ := .imap (.array hline)
  have hcop : Cop0.law.Takes cpu.cop0 _ _ := .imap (.vector .word32)
  have h : law.Takes cpu _ _ := .imap (.pair (.vector .word32) (.pair (.word32 _)
    (.pair (.word32 _) (.pair (.word32 _) (.pair (.word32 _) (.pair (.word32 _) (.pair hcop
    (.pair hcache (.pair (.option hload) (.pair (.bool _) (.pair (.bool _) (.word32 _))))))))))))
  exact h.mono (by omega) (by omega)

/-- A processor fits whatever it holds, as long as its cache has its size. -/
theorem Cpu.fits {cpu : Cpu} (hc : cpu.cache.lines.size = 1024) : law.fits cpu :=
  ⟨fun _ _ => trivial, trivial, trivial, trivial, trivial, trivial, fun _ _ => trivial,
    ⟨by show cpu.cache.lines.size < _; rw [hc]; decide, fun _ _ => ⟨trivial, trivial, trivial⟩⟩,
    fun _ _ => ⟨trivial, trivial⟩, trivial, trivial, trivial⟩

/-! ### Sessions -/

variable {δ : Type} [Device δ]

theorem encode_size_le {α : Type} {c : Codec α} {l : Law c} {a : α} {k n : Nat} (hf : l.fits a)
    (h : l.Takes a k n) : (c.encode a).size ≤ n := by
  have he : (c.encode a).size = (l.image a).length := by
    rw [← l.encode_eq hf]; exact Array.length_toList.symm
  exact he ▸ h.size

/-- The saved state of a chip is short, but for the words in the queue of the video port and the line
that is being printed. -/
theorem Board.save_size_le (b : Board δ) {p : Part} (hp : p ∈ Part.core) (hf : b.Fits p) :
    (b.save p).size ≤ 512 + b.gpu.queue.words.size * 9 + b.expansion.line.toUTF8.size := by
  cases p with
  | interrupts => exact (encode_size_le hf (InterruptController.takes _)).trans (by omega)
  | timers => exact (encode_size_le hf (Timers.takes _)).trans (by omega)
  | dma => exact (encode_size_le hf (Dma.takes _)).trans (by omega)
  | memoryControl => exact (encode_size_le hf (MemoryControl.takes _)).trans (by omega)
  | expansion => exact (encode_size_le hf (Expansion.takes _)).trans (by omega)
  | gpu => exact (encode_size_le hf (Gpu.takes _)).trans (by omega)
  | «external» i => simp [Part.core] at hp

namespace Machine

variable {m : Machine δ}

/-- What a session claims, part by part. -/
theorem claims_capture (m : Machine δ) : Session.law.claims m.capture =
    4 + (Cpu.law.claims m.cpu +
      (Memory.law.claims m.bus.memory + (Scheduler.law.claims m.scheduler +
        (8 + (Law.text.pair Law.bytes).claimsAll m.bus.saveDevices)))) := rfl

/-- What a session claims whose devices save so much under their names. -/
theorem claims_le_of {k : Nat} (hs : m.bus.memory.hasSizes = true)
    (hc : m.cpu.cache.lines.size = 1024)
    (hk : ∀ x ∈ m.bus.saveDevices, x.1.toUTF8.size + x.2.size ≤ k) :
    Session.law.claims m.capture ≤ 3145728 + Scheduler.law.claims m.scheduler +
      m.bus.saveDevices.length * (16 + k) := by
  have hcpu := (Cpu.takes m.cpu).claims
  rw [hc] at hcpu
  have hmemory : Memory.law.claims m.bus.memory ≤ 2622492 := by
    rw [Memory.hasSizes_iff] at hs
    show 8 + m.bus.memory.ram.size +
      (8 + m.bus.memory.scratchpad.size + (8 + m.bus.memory.bios.size + 4)) ≤ _
    rw [hs.1.1, hs.1.2, hs.2]
    decide
  have hdevices : (Law.text.pair Law.bytes).claimsAll m.bus.saveDevices ≤
      m.bus.saveDevices.length * (16 + k) := Law.claimsAll_le fun x hx => by
    have := hk x hx
    show 8 + x.1.toUTF8.size + (8 + x.2.size) ≤ _
    omega
  have htotal := m.claims_capture
  omega

/-- The chips of the core have short names. -/
theorem coreTable_names : ∀ e ∈ coreTable.entries.toList,
    e.name.toUTF8.size ≤ 64 ∧ e.part ∈ Part.core := by decide +kernel

/-- What the chips of the core save, with their names. -/
theorem saveDevices_size_le (ht : m.bus.table = coreTable)
    (hf : ∀ p ∈ Part.core, m.bus.board.Fits p) :
    ∀ x ∈ m.bus.saveDevices, x.1.toUTF8.size + x.2.size ≤
      576 + m.bus.board.gpu.queue.words.size * 9 + m.bus.board.expansion.line.toUTF8.size := by
  intro x hx
  obtain ⟨e, he, rfl⟩ := List.mem_map.1 hx
  rw [ht] at he
  obtain ⟨hn, hp⟩ := coreTable_names e he
  have := m.bus.board.save_size_le hp (hf e.part hp)
  dsimp only
  omega

/-- A session of the core takes back its own snapshot, unless its queue or its line runs to many
thousands of words or characters. -/
theorem claims_le (ht : m.bus.table = coreTable) (hf : m.Fits)
    (hs : m.bus.memory.hasSizes = true) (hc : m.cpu.cache.lines.size = 1024)
    (he : Scheduler.law.claims m.scheduler ≤ 1048576)
    (hq : m.bus.board.gpu.queue.words.size ≤ 131072)
    (hl : m.bus.board.expansion.line.toUTF8.size ≤ 524288) :
    Session.law.claims m.capture ≤ allowance := by
  have hp := Bus.parts_of_table ht
  have hlen : m.bus.saveDevices.length = 6 := by unfold Bus.saveDevices; rw [ht]; rfl
  have h := claims_le_of hs hc (saveDevices_size_le ht fun p h => hf.chips p (by rw [hp]; exact h))
  rw [hlen] at h
  unfold allowance
  omega

/-- What it takes for the numbers of a session to lie in the ranges of their types. -/
theorem fits_of (hc : m.cpu.cache.lines.size = 1024) (hs : m.bus.memory.hasSizes = true)
    (he : Scheduler.law.fits m.scheduler) (hp : ∀ p ∈ m.bus.parts, m.bus.board.Fits p)
    (hn : m.bus.saveDevices.length < 256)
    (hd : ∀ x ∈ m.bus.saveDevices, x.1.toUTF8.size + x.2.size < 256 ^ 8) : m.Fits where
  chips := hp
  session := by
    have hmemory : Memory.law.fits m.bus.memory := by
      rw [Memory.hasSizes_iff] at hs
      refine ⟨?_, ?_, ?_, trivial⟩
      · show m.bus.memory.ram.size < _; rw [hs.1.1]; decide
      · show m.bus.memory.scratchpad.size < _; rw [hs.1.2]; decide
      · show m.bus.memory.bios.size < _; rw [hs.2]; decide
    refine ⟨show Snapshot.version < 256 ^ 4 by decide, Cpu.fits hc, hmemory, he, ?_, fun x hx => ?_⟩
    · show m.bus.saveDevices.toArray.size < _
      rw [List.size_toArray]
      exact hn.trans (by decide)
    · have := hd x hx
      exact ⟨show x.1.toUTF8.size < _ by omega, show x.2.size < _ by omega⟩

theorem Fits.with_cpu (h : m.Fits) {cpu : Cpu} (hc : cpu.cache.lines.size = 1024) :
    ({ m with cpu } : Machine δ).Fits :=
  ⟨⟨h.session.1, Cpu.fits hc, h.session.2.2⟩, h.chips⟩

end Machine

/-! ### Power on -/

/-- The numbers of a configuration lie in the ranges of their types. -/
structure SessionConfig.Fits (config : SessionConfig) : Prop where
  sliceGap : config.dma.sliceGapCycles < 256 ^ 4
  capacity : config.gpuFifoCapacity < 256 ^ 8

omit [Device δ] in
theorem Board.fits_ofConfig {config : SessionConfig} (hf : config.Fits) :
    ∀ p ∈ Part.core, (Board.ofConfig config : Board δ).Fits p := by
  intro p hp
  cases p with
  | interrupts => exact ⟨trivial, trivial⟩
  | timers =>
    have h : ∀ ch ∈ ({} : Timers).channels.toList, ch.prescale < 256 ^ 8 := by decide
    exact ⟨fun ch hch => ⟨trivial, ⟨trivial, trivial, trivial, trivial, trivial, trivial, trivial,
      trivial⟩, trivial, trivial, trivial, trivial, trivial, trivial, trivial, trivial, h ch hch⟩,
      trivial⟩
  | dma =>
    have h : ∀ ch ∈ (Dma.initial 0).channels.toList, ch.progress = none := by decide
    have hg : max config.dma.sliceGapCycles 1 < 256 ^ 4 := by have := hf.sliceGap; omega
    exact ⟨fun ch hch => ⟨trivial, trivial, trivial, trivial, fun p hp => by
      cases (h ch hch).symm.trans hp⟩, trivial, trivial, hg⟩
  | memoryControl => exact ⟨fun _ _ => trivial, trivial⟩
  | expansion => exact ⟨trivial, show "".toUTF8.size < _ by decide⟩
  | gpu =>
    have hc : max config.gpuFifoCapacity 1 < 256 ^ 8 := by have := hf.capacity; omega
    have h0 : ∀ k, 0 < 256 ^ k := fun k => Nat.pow_pos (by decide)
    exact ⟨⟨trivial, trivial, trivial, trivial, trivial, trivial, trivial, trivial, trivial,
      trivial, trivial, trivial, trivial, trivial⟩, ⟨trivial, trivial, trivial, trivial, trivial,
      trivial⟩, ⟨trivial, trivial, trivial, trivial⟩, ⟨⟨h0 8, fun _ h => by cases h⟩, hc,
      h0 8⟩, trivial, trivial, h0 4, trivial, trivial, h0 2, h0 4, h0 8, trivial, trivial⟩
  | «external» i => trivial

namespace Machine

theorem scheduler₀_fits : Scheduler.law.fits scheduler₀ := by
  have h : ∀ e ∈ scheduler₀.events.toList, e.name.toUTF8.size < 256 ^ 8 ∧ e.due = none := by
    decide +kernel
  exact ⟨show 0 < 256 ^ 8 by decide, show 2 < 256 ^ 8 by decide, fun e he => ⟨(h e he).1,
    fun due hd => by cases (h e he).2.symm.trans hd⟩⟩

/-- The numbers of a session lie in their ranges at power on. -/
theorem fits_powerOn {config : SessionConfig} (hf : config.Fits) {file : Option Bus.BiosFile}
    {m : Machine δ} (h : ofConfig config file = .ok m) : m.Fits := by
  obtain ⟨memory, hs, hm⟩ := ofConfig_eq h
  have hchips : ∀ p ∈ Part.core, m.bus.board.Fits p := by
    rw [hm]; exact Board.fits_ofConfig hf
  have htable : m.bus.table = coreTable := by rw [hm]; rfl
  have hsize : 576 + m.bus.board.gpu.queue.words.size * 9 +
      m.bus.board.expansion.line.toUTF8.size < 256 ^ 8 := by
    rw [hm]
    show 576 + 0 * 9 + "".toUTF8.size < 256 ^ 8
    decide
  refine fits_of (by rw [hm]; exact Cpu.sound_initial.lines) (by rw [hm]; exact hs)
    (by rw [hm]; exact scheduler₀_fits) (fun p hp => hchips p ?_) ?_ fun x hx => ?_
  · rwa [Bus.parts_of_table htable] at hp
  · unfold Bus.saveDevices
    rw [htable]
    show 6 < 256
    decide
  · exact Nat.lt_of_le_of_lt (saveDevices_size_le htable hchips x hx) hsize

/-- A session as it is built, without a boot image. -/
def fresh (config : SessionConfig) : Machine δ :=
  { bus := bus₀ config, scheduler := scheduler₀, config }

theorem fresh_eq (config : SessionConfig) :
    ofConfig config none = .ok (fresh config : Machine δ) := by
  unfold ofConfig
  rw [build_eq]
  rfl

theorem reachable_fresh {s : Surroundings δ} (hf : s.config.Fits) :
    (fresh s.config : Machine δ).Reachable s :=
  .powerOn (fresh_eq s.config) (fits_powerOn hf (fresh_eq s.config))

theorem claims_fresh {config : SessionConfig} (hf : config.Fits) :
    Session.law.claims (fresh config : Machine δ).capture ≤ allowance :=
  claims_le rfl (fits_powerOn hf (fresh_eq config)) Memory.hasSizes_initial
    Cpu.sound_initial.lines (show Scheduler.law.claims scheduler₀ ≤ 1048576 by decide +kernel)
    (Nat.zero_le _) (show "".toUTF8.size ≤ 524288 by decide)

end Machine

end Psx
