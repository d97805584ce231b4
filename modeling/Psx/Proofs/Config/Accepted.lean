import Psx.Config.Document
import Psx.Proofs.Snapshot.Allowance

/-!
# Numbers in a configuration

A document gives its numbers as integers of any size. Each that is read for a setting is compared
with the range of the setting, so a configuration that comes from a document has its costs in 32
bits, and can be saved (`SessionConfig.ofToml_inRange`).
-/

namespace Psx

/-- The costs are numbers of cycles of 32 bits. -/
structure AccessCost.InRange (c : AccessCost) : Prop where
  read : c.read < 2 ^ 32
  write : c.write < 2 ^ 32

structure BusTiming.InRange (t : BusTiming) : Prop where
  instructionCycles : t.instructionCycles < 2 ^ 32
  ram : t.ram.InRange
  scratchpad : t.scratchpad.InRange
  bios : t.bios.InRange
  io : t.io.InRange
  expansion : t.expansion.InRange

namespace SessionConfig

open Toml (Value Entries)

/-- A setting has what its value is read to have, or what is usual. -/
theorem setting?_of {α : Type} (P : α → Prop) {entries : Entries} {key : String} {usual a : α}
    {read : Value → Option α} (h : setting? entries key usual read = some a) (hu : P usual)
    (hr : ∀ v a, read v = some a → P a) : P a := by
  unfold setting? at h
  split at h
  · exact hr _ _ h
  · cases h
    exact hu

theorem natBelow?_lt {limit n : Nat} {v : Value} (h : natBelow? limit v = some n) : n < limit := by
  unfold natBelow? at h
  split at h
  · split_ifs at h with hn
    cases h
    omega
  · cases h

theorem accessCost?_inRange {v : Value} {c : AccessCost} (h : accessCost? v = some c) :
    c.InRange := by
  unfold accessCost? at h
  obtain ⟨entries, -, h⟩ := Option.bind_eq_some_iff.1 h
  obtain ⟨_, -, h⟩ := Option.bind_eq_some_iff.1 h
  obtain ⟨read, hread, h⟩ := Option.bind_eq_some_iff.1 h
  obtain ⟨_, -, h⟩ := Option.bind_eq_some_iff.1 h
  obtain ⟨write, hwrite, h⟩ := Option.bind_eq_some_iff.1 h
  cases h
  exact ⟨natBelow?_lt hread, natBelow?_lt hwrite⟩

theorem timing?_inRange {v : Value} {t : BusTiming} (h : timing? v = some t) : t.InRange := by
  have hcost : ∀ {entries key} {usual c : AccessCost},
      setting? entries key usual accessCost? = some c → usual.InRange → c.InRange :=
    fun h hu => setting?_of AccessCost.InRange h hu fun _ _ => accessCost?_inRange
  unfold timing? at h
  obtain ⟨entries, -, h⟩ := Option.bind_eq_some_iff.1 h
  obtain ⟨cycles, hcycles, h⟩ := Option.bind_eq_some_iff.1 h
  obtain ⟨ram, hram, h⟩ := Option.bind_eq_some_iff.1 h
  obtain ⟨scratchpad, hscratchpad, h⟩ := Option.bind_eq_some_iff.1 h
  obtain ⟨bios, hbios, h⟩ := Option.bind_eq_some_iff.1 h
  obtain ⟨io, hio, h⟩ := Option.bind_eq_some_iff.1 h
  obtain ⟨expansion, hexpansion, h⟩ := Option.bind_eq_some_iff.1 h
  cases h
  exact ⟨setting?_of (· < 2 ^ 32) hcycles (by decide) fun _ _ => natBelow?_lt,
    hcost hram ⟨by decide, by decide⟩, hcost hscratchpad ⟨by decide, by decide⟩,
    hcost hbios ⟨by decide, by decide⟩, hcost hio ⟨by decide, by decide⟩,
    hcost hexpansion ⟨by decide, by decide⟩⟩

theorem dmaTiming?_lt {v : Value} {t : DmaTiming} (h : dmaTiming? v = some t) :
    t.sliceGapCycles < 2 ^ 32 := by
  unfold dmaTiming? at h
  obtain ⟨entries, -, h⟩ := Option.bind_eq_some_iff.1 h
  obtain ⟨gap, hgap, h⟩ := Option.bind_eq_some_iff.1 h
  cases h
  exact setting?_of (· < 2 ^ 32) hgap (by decide) fun _ _ => natBelow?_lt

/-- The numbers of a configuration that was read from a document lie in the ranges of their types. -/
theorem ofToml_inRange {text : String} {config : SessionConfig} (h : ofToml text = .ok config) :
    config.timing.InRange ∧ config.Fits := by
  have hread : ofToml? text = some config := by
    unfold ofToml at h
    split at h
    · next hs => rw [hs, Except.ok.inj h]
    · cases h
  obtain ⟨entries, -, hread⟩ := Option.bind_eq_some_iff.1 hread
  unfold ofEntries? at hread
  obtain ⟨entries, -, h⟩ := Option.bind_eq_some_iff.1 hread
  obtain ⟨_, -, h⟩ := Option.bind_eq_some_iff.1 h
  obtain ⟨_, -, h⟩ := Option.bind_eq_some_iff.1 h
  obtain ⟨_, -, h⟩ := Option.bind_eq_some_iff.1 h
  obtain ⟨capacity, hcapacity, h⟩ := Option.bind_eq_some_iff.1 h
  obtain ⟨timing, htiming, h⟩ := Option.bind_eq_some_iff.1 h
  obtain ⟨dma, hdma, h⟩ := Option.bind_eq_some_iff.1 h
  cases h
  have husual : ({} : BusTiming).InRange :=
    ⟨by decide, ⟨by decide, by decide⟩, ⟨by decide, by decide⟩, ⟨by decide, by decide⟩,
      ⟨by decide, by decide⟩, ⟨by decide, by decide⟩⟩
  have hgap : dma.sliceGapCycles < 2 ^ 32 :=
    setting?_of (·.sliceGapCycles < 2 ^ 32) hdma (by decide) fun _ _ => dmaTiming?_lt
  have hlimit : capacity < 0x10000000000000000 :=
    setting?_of (· < 0x10000000000000000) hcapacity (by decide) fun _ _ => natBelow?_lt
  exact ⟨setting?_of BusTiming.InRange htiming husual fun _ _ => timing?_inRange, ⟨hgap, hlimit⟩⟩

end SessionConfig

end Psx
