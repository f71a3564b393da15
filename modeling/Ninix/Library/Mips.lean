import Mathlib.Data.List.Nodup
import Mathlib.Data.Nat.Notation
import Mathlib.Logic.Function.Basic
import Mathlib.Logic.Relation
import Mathlib.Tactic.SplitIfs

/-!
# A MIPS machine

Instructions that move words between registers, memory and coprocessor 0, and the jumps with
their delay slots. A block of instructions that do not jump does what its instructions do one
after the other; in particular a block of stores puts registers into a frame, and one of loads
takes them out.
-/

namespace Mips

abbrev Word := BitVec 32

inductive Reg
  | zero
  | at
  | v0
  | v1
  | a0
  | a1
  | a2
  | a3
  | t0
  | t1
  | t2
  | t3
  | t4
  | t5
  | t6
  | t7
  | s0
  | s1
  | s2
  | s3
  | s4
  | s5
  | s6
  | s7
  | t8
  | t9
  | k0
  | k1
  | gp
  | sp
  | fp
  | ra
  deriving DecidableEq

/-- The instructions; the target of a jump is its address. -/
inductive Instr
  | nop
  | move (rd rs : Reg)
  | lui (rt : Reg) (imm : BitVec 16)
  | addiu (rt rs : Reg) (imm : BitVec 16)
  | addi (rt rs : Reg) (imm : BitVec 16)
  | sltu (rd rs rt : Reg)
  | lw (rt : Reg) (offset : BitVec 16) (base : Reg)
  | sw (rt : Reg) (offset : BitVec 16) (base : Reg)
  | mfhi (rd : Reg)
  | mflo (rd : Reg)
  | mthi (rs : Reg)
  | mtlo (rs : Reg)
  | mfc0 (rt : Reg) (number : ℕ)
  | mtc0 (rt : Reg) (number : ℕ)
  | beq (rs rt : Reg) (target : Word)
  | j (target : Word)
  | jal (target : Word)
  | jr (rs : Reg)
  | eret

/-- Registers, coprocessor 0 and memory, which is read and written in aligned words. -/
structure Data where
  regs : Reg → Word
  hi : Word
  lo : Word
  cp0 : ℕ → Word
  mem : Word → Word

/-- The instruction that runs, the one behind it, and the data. -/
structure Machine where
  pc : Word
  next : Word
  data : Data

/-- The machine comes to an address, not out of the delay slot of a jump. -/
abbrev Machine.entering (address : Word) (d : Data) : Machine := ⟨address, address + 4, d⟩

/-- The numbers of registers of coprocessor 0. -/
abbrev count : ℕ := 9
abbrev status : ℕ := 12
abbrev cause : ℕ := 13
abbrev epc : ℕ := 14

namespace Data

/-- What an instruction reads: the register `zero` reads as 0. -/
def reg (d : Data) (r : Reg) : Word := if r = .zero then 0 else d.regs r

def setReg (d : Data) (r : Reg) (value : Word) : Data :=
  if r = .zero then d else { d with regs := Function.update d.regs r value }

def setCp0 (d : Data) (number : ℕ) (value : Word) : Data :=
  { d with cp0 := Function.update d.cp0 number value }

theorem setCp0_self (d : Data) (number : ℕ) (value : Word) :
    (d.setCp0 number value).cp0 number = value := Function.update_self ..

theorem setCp0_of_ne (d : Data) {number other : ℕ} (ne : other ≠ number) (value : Word) :
    (d.setCp0 number value).cp0 other = d.cp0 other := Function.update_of_ne ne _ _

/-- The address of a load or a store. -/
def address (d : Data) (base : Reg) (offset : BitVec 16) : Word :=
  d.reg base + offset.signExtend 32

end Data

/-- An address of a word. -/
def Aligned (address : Word) : Prop := address.toNat % 4 = 0

instance (address : Word) : Decidable (Aligned address) := inferInstanceAs (Decidable (_ = _))

/-- What an instruction that does not jump does; `none` is an exception. -/
def effect (d : Data) : Instr → Option Data
  | .nop => some d
  | .move rd rs => some (d.setReg rd (d.reg rs))
  | .lui rt imm => some (d.setReg rt (imm ++ 0#16))
  | .addiu rt rs imm => some (d.setReg rt (d.reg rs + imm.signExtend 32))
  | .addi rt rs imm =>
      if BitVec.saddOverflow (d.reg rs) (imm.signExtend 32) then none
      else some (d.setReg rt (d.reg rs + imm.signExtend 32))
  | .sltu rd rs rt => some (d.setReg rd (if d.reg rs < d.reg rt then 1 else 0))
  | .lw rt offset base =>
      if Aligned (d.address base offset) then
        some (d.setReg rt (d.mem (d.address base offset)))
      else none
  | .sw rt offset base =>
      if Aligned (d.address base offset) then
        some { d with mem := Function.update d.mem (d.address base offset) (d.reg rt) }
      else none
  | .mfhi rd => some (d.setReg rd d.hi)
  | .mflo rd => some (d.setReg rd d.lo)
  | .mthi rs => some { d with hi := d.reg rs }
  | .mtlo rs => some { d with lo := d.reg rs }
  | .mfc0 rt number => some (d.setReg rt (d.cp0 number))
  | .mtc0 rt number => some (d.setCp0 number (d.reg rt))
  | .beq .. | .j .. | .jal .. | .jr .. | .eret => none

/-- The instruction does not jump. -/
def Instr.isPlain : Instr → Bool
  | .beq .. | .j .. | .jal .. | .jr .. | .eret => false
  | _ => true

/-- One instruction. The one behind a jump, in its delay slot, runs before the target does; there
is none behind `eret`, which leaves the exception level, bit 1 of `Status`. -/
def exec (m : Machine) : Instr → Option Machine
  | .beq rs rt target =>
      some ⟨m.next, if m.data.reg rs = m.data.reg rt then target else m.next + 4, m.data⟩
  | .j target => some ⟨m.next, target, m.data⟩
  | .jal target => some ⟨m.next, target, m.data.setReg .ra (m.next + 4)⟩
  | .jr rs => some ⟨m.next, m.data.reg rs, m.data⟩
  | .eret =>
      some ⟨m.data.cp0 epc, m.data.cp0 epc + 4,
        m.data.setCp0 status (m.data.cp0 status &&& ~~~2)⟩
  | instr => (effect m.data instr).map fun d => ⟨m.next, m.next + 4, d⟩

/-- The instructions in memory. -/
abbrev Code := Word → Option Instr

def step (code : Code) (m : Machine) : Option Machine := (code m.pc).bind (exec m)

/-- One state leads to another. -/
abbrev Runs (code : Code) : Machine → Machine → Prop :=
  Relation.ReflTransGen fun m m' => step code m = some m'

/-- Instructions stand one after the other from an address on. -/
def Placed (code : Code) : Word → List Instr → Prop
  | _, [] => True
  | address, instr :: rest => code address = some instr ∧ Placed code (address + 4) rest

/-- The words of instructions, with their addresses. -/
def listing : Word → List Instr → List (Word × Instr)
  | _, [] => []
  | address, instr :: rest => (address, instr) :: listing (address + 4) rest

/-- The code of blocks, with their addresses. -/
def codeOf (blocks : List (Word × List Instr)) : Code :=
  fun address => (blocks.flatMap fun block => listing block.1 block.2).lookup address

/-- The address behind instructions. -/
def behind : Word → List Instr → Word
  | address, [] => address
  | address, _ :: rest => behind (address + 4) rest

/-- What instructions that do not jump do one after the other. -/
def effects : Data → List Instr → Option Data
  | d, [] => some d
  | d, instr :: rest => (effect d instr).bind fun d => effects d rest

variable {code : Code} {address : Word} {block rest : List Instr} {d d' d'' : Data}

theorem placed_append :
    Placed code address (block ++ rest) ↔
      Placed code address block ∧ Placed code (behind address block) rest := by
  induction block generalizing address with
  | nil => exact (iff_of_eq (true_and _)).symm
  | cons instr block ih => rw [List.cons_append, Placed, Placed, ih, and_assoc, behind]

theorem placed_of_listing (found : ∀ word ∈ listing address block, code word.1 = some word.2) :
    Placed code address block := by
  induction block generalizing address with
  | nil => trivial
  | cons instr block ih =>
      exact ⟨found (address, instr) List.mem_cons_self,
        ih fun word mem => found word (List.mem_cons_of_mem _ mem)⟩

/-- Blocks that do not overlap are all in the code. -/
theorem placed_codeOf {blocks : List (Word × List Instr)}
    (nodup : ((blocks.flatMap fun block => listing block.1 block.2).map (·.1)).Nodup)
    (mem : (address, block) ∈ blocks) : Placed (codeOf blocks) address block := by
  refine placed_of_listing fun word isWord => ?_
  have inCode : word ∈ blocks.flatMap fun block => listing block.1 block.2 :=
    List.mem_flatMap.mpr ⟨_, mem, isWord⟩
  rcases List.append_of_mem inCode with ⟨before, after, split⟩
  rw [codeOf, List.lookup_eq_some_iff]
  refine ⟨before, after, split, fun other isBefore => bne_iff_ne.mpr fun same => ?_⟩
  rw [split, List.map_append, List.map_cons, List.nodup_append] at nodup
  exact nodup.2.2 other.1 (List.mem_map_of_mem isBefore) word.1 List.mem_cons_self same.symm

theorem effects_append :
    effects d (block ++ rest) = (effects d block).bind fun d => effects d rest := by
  induction block generalizing d with
  | nil => rfl
  | cons instr block ih =>
      rw [List.cons_append, effects, effects, Option.bind_assoc]
      congr 1
      funext d'
      exact ih

theorem effects_singleton {instr : Instr} : effects d [instr] = effect d instr :=
  Option.bind_fun_some _

theorem exec_plain {m : Machine} {instr : Instr} (plain : instr.isPlain = true) :
    exec m instr = (effect m.data instr).map fun d => ⟨m.next, m.next + 4, d⟩ := by
  cases instr <;> first | rfl | cases plain

/-- A block of instructions that do not jump. -/
theorem runs_block (placed : Placed code address block)
    (plain : ∀ instr ∈ block, instr.isPlain = true) (effective : effects d block = some d') :
    Runs code ⟨address, address + 4, d⟩ ⟨behind address block, behind address block + 4, d'⟩ := by
  induction block generalizing address d with
  | nil =>
      cases effective
      exact .refl
  | cons instr block ih =>
      rcases Option.bind_eq_some_iff.mp effective with ⟨d₁, first, others⟩
      have stepped : step code ⟨address, address + 4, d⟩ =
          some ⟨address + 4, address + 4 + 4, d₁⟩ := by
        rw [step, placed.1, Option.bind_some, exec_plain (plain instr List.mem_cons_self), first]
        rfl
      exact .head stepped
        (ih placed.2 (fun instr mem => plain instr (List.mem_cons_of_mem _ mem)) others)

/-- A jump and the instruction in its delay slot. -/
theorem runs_delayed {jump slot : Instr} {target : Word} (placed : Placed code address [jump, slot])
    (jumps : exec ⟨address, address + 4, d⟩ jump = some ⟨address + 4, target, d'⟩)
    (plain : slot.isPlain = true) (effective : effect d' slot = some d'') :
    Runs code ⟨address, address + 4, d⟩ ⟨target, target + 4, d''⟩ := by
  rcases placed with ⟨isJump, isSlot, _⟩
  have first : step code ⟨address, address + 4, d⟩ = some ⟨address + 4, target, d'⟩ := by
    rw [step, isJump, Option.bind_some, jumps]
  have second : step code ⟨address + 4, target, d'⟩ = some ⟨target, target + 4, d''⟩ := by
    rw [step, isSlot, Option.bind_some, exec_plain plain, effective]
    rfl
  exact .head first (.single second)

/-- A block that leaves the exception level in the end. -/
theorem runs_eret (placed : Placed code address (block ++ [.eret]))
    (plain : ∀ instr ∈ block, instr.isPlain = true) (effective : effects d block = some d') :
    Runs code (.entering address d)
      (.entering (d'.cp0 epc) (d'.setCp0 status (d'.cp0 status &&& ~~~2))) := by
  rcases placed_append.mp placed with ⟨first, isEret, _⟩
  refine (runs_block first plain effective).tail ?_
  rw [step, isEret]
  rfl

/-- The upper half that `la` loads, rounded for the lower half, which is signed. -/
def hi16 (address : Word) : BitVec 16 := (address + 0x8000).extractLsb' 16 16

def lo16 (address : Word) : BitVec 16 := address.extractLsb' 0 16

/-- `la`, which the assembler makes two instructions of. -/
def la (rt : Reg) (address : Word) : List Instr :=
  [.lui rt (hi16 address), .addiu rt rt (lo16 address)]

theorem hi16_lo16 (address : Word) :
    (hi16 address ++ 0#16) + (lo16 address).signExtend 32 = address := by
  have high : (hi16 address ++ 0#16).toNat =
      (address.toNat + 32768) % 2 ^ 32 / 65536 * 65536 := by
    rw [BitVec.toNat_append, hi16, BitVec.extractLsb'_toNat, BitVec.toNat_add,
      Nat.shiftRight_eq_div_pow, Nat.shiftLeft_eq]
    simp only [BitVec.ofNat_eq_ofNat, BitVec.toNat_ofNat, Nat.reducePow, Nat.reduceMod,
      Nat.zero_mod, Nat.or_zero]
    omega
  have low : ((lo16 address).signExtend 32).toNat =
      address.toNat % 65536 + if address.toNat % 65536 < 32768 then 0 else 2 ^ 32 - 65536 := by
    have msb : (address.extractLsb' 0 16).msb = decide (32768 ≤ address.toNat % 65536) := by
      rw [BitVec.msb_eq_decide]
      simp only [Nat.add_one_sub_one, Nat.reducePow, BitVec.extractLsb'_toNat, Nat.shiftRight_zero]
    rw [BitVec.toNat_signExtend, lo16, msb]
    simp only [BitVec.toNat_setWidth, BitVec.extractLsb'_toNat, Nat.shiftRight_zero, Nat.reducePow,
      decide_eq_true_eq, Nat.reduceSub]
    split_ifs <;> omega
  have bounded := address.isLt
  apply BitVec.eq_of_toNat_eq
  rw [BitVec.toNat_add, high, low]
  split_ifs <;> omega

/-- `la` loads the address. -/
theorem effects_la {rt : Reg} (notZero : rt ≠ .zero) :
    effects d (la rt address) = some { d with regs := Function.update d.regs rt address } := by
  simp only [la, effects, effect, Data.setReg, Data.reg, if_neg notZero, Option.bind_some,
    Function.update_self, hi16_lo16, Function.update_idem]

/-! ## Frames -/

/-- Registers with the offsets of their places in a frame. -/
abbrev Slots := List (Reg × BitVec 16)

/-- Put registers into a frame. -/
def saves (base : Reg) (slots : Slots) : List Instr := slots.map fun slot => .sw slot.1 slot.2 base

/-- Take registers out of a frame. -/
def loads (base : Reg) (slots : Slots) : List Instr := slots.map fun slot => .lw slot.1 slot.2 base

variable {base : Reg} {slots : Slots}

theorem saves_plain : ∀ instr ∈ saves base slots, instr.isPlain = true := by
  intro instr mem
  rcases List.mem_map.mp mem with ⟨slot, _, rfl⟩
  rfl

theorem loads_plain : ∀ instr ∈ loads base slots, instr.isPlain = true := by
  intro instr mem
  rcases List.mem_map.mp mem with ⟨slot, _, rfl⟩
  rfl

/-- What a frame holds of the registers, and what it leaves of the rest of the memory. -/
structure Saved (d : Data) (base : Reg) (slots : Slots) (mem : Word → Word) : Prop where
  held : ∀ slot ∈ slots, mem (d.address base slot.2) = d.reg slot.1
  others : ∀ a, (∀ slot ∈ slots, a ≠ d.address base slot.2) → mem a = d.mem a

/-- Stores at different offsets put every register into its place. -/
theorem effects_saves (aligned : ∀ slot ∈ slots, Aligned (d.address base slot.2))
    (nodup : (slots.map fun slot => slot.2.signExtend 32).Nodup) :
    ∃ mem, effects d (saves base slots) = some { d with mem } ∧ Saved d base slots mem := by
  induction slots generalizing d with
  | nil => exact ⟨d.mem, rfl, fun slot mem => absurd mem List.not_mem_nil, fun a _ => rfl⟩
  | cons slot slots ih =>
      rcases List.nodup_cons.mp nodup with ⟨notIn, nodup'⟩
      have first : effect d (.sw slot.1 slot.2 base) =
          some { d with mem := Function.update d.mem (d.address base slot.2) (d.reg slot.1) } :=
        if_pos (aligned slot List.mem_cons_self)
      rcases ih (d := { d with
          mem := Function.update d.mem (d.address base slot.2) (d.reg slot.1) })
        (fun other mem => aligned other (List.mem_cons_of_mem _ mem)) nodup' with
        ⟨mem, effective, held, others⟩
      have apart : ∀ other ∈ slots, d.address base slot.2 ≠ d.address base other.2 := by
        intro other mem same
        exact notIn (List.mem_map.mpr ⟨other, mem, ((BitVec.add_right_inj _).mp same).symm⟩)
      refine ⟨mem, ?_, fun other isSlot => ?_, fun a outside => ?_⟩
      · rw [saves, List.map_cons, effects, first]
        exact effective
      · rcases List.mem_cons.mp isSlot with rfl | behind
        · exact (others _ apart).trans (Function.update_self ..)
        · exact held other behind
      · rw [others a fun other isSlot => outside other (List.mem_cons_of_mem _ isSlot)]
        exact Function.update_of_ne (outside slot List.mem_cons_self) _ _

/-- What registers hold of a frame, and what they leave of the others. -/
structure Loaded (d : Data) (base : Reg) (slots : Slots) (regs : Reg → Word) : Prop where
  taken : ∀ slot ∈ slots, regs slot.1 = d.mem (d.address base slot.2)
  others : ∀ r, (∀ slot ∈ slots, slot.1 ≠ r) → regs r = d.regs r

/-- Loads of different registers, none of which is the base, take every word out of its place. -/
theorem effects_loads (aligned : ∀ slot ∈ slots, Aligned (d.address base slot.2))
    (nodup : (slots.map (·.1)).Nodup) (proper : ∀ slot ∈ slots, slot.1 ≠ base ∧ slot.1 ≠ .zero) :
    ∃ regs, effects d (loads base slots) = some { d with regs } ∧ Loaded d base slots regs := by
  induction slots generalizing d with
  | nil => exact ⟨d.regs, rfl, fun slot mem => absurd mem List.not_mem_nil, fun r _ => rfl⟩
  | cons slot slots ih =>
      rcases List.nodup_cons.mp nodup with ⟨notIn, nodup'⟩
      rcases proper slot List.mem_cons_self with ⟨notBase, notZero⟩
      have first : effect d (.lw slot.1 slot.2 base) =
          some { d with
            regs := Function.update d.regs slot.1 (d.mem (d.address base slot.2)) } := by
        rw [effect, if_pos (aligned slot List.mem_cons_self), Data.setReg, if_neg notZero]
      let d₁ : Data := { d with
        regs := Function.update d.regs slot.1 (d.mem (d.address base slot.2)) }
      have address : ∀ offset, d₁.address base offset = d.address base offset := by
        intro offset
        have same : d₁.reg base = d.reg base := by
          show (if base = .zero then 0 else Function.update d.regs slot.1 _ base) = _
          rw [Function.update_of_ne notBase.symm]
          rfl
        rw [Data.address, same]
        rfl
      have aligned' : ∀ other ∈ slots, Aligned (d₁.address base other.2) := by
        intro other mem
        rw [address]
        exact aligned other (List.mem_cons_of_mem _ mem)
      rcases ih aligned' nodup' fun other mem => proper other (List.mem_cons_of_mem _ mem) with
        ⟨regs, effective, taken, others⟩
      have behind : ∀ other ∈ slots, other.1 ≠ slot.1 := fun other mem same =>
        notIn (List.mem_map.mpr ⟨other, mem, same⟩)
      refine ⟨regs, ?_, fun other isSlot => ?_, fun r outside => ?_⟩
      · rw [loads, List.map_cons, effects, first]
        exact effective
      · rcases List.mem_cons.mp isSlot with rfl | isBehind
        · exact (others _ behind).trans (Function.update_self ..)
        · rw [taken other isBehind, address]
      · rw [others r fun other isSlot => outside other (List.mem_cons_of_mem _ isSlot)]
        exact Function.update_of_ne (outside slot List.mem_cons_self).symm _ _

end Mips
