import Ninix.Driver.Clock
import Ninix.Driver.Erasing

/-!
# The shell

`ps` gathers the characters of a line in `ps_buffer`, whose terminator it writes when the line
ends, so that the rest of earlier lines stays behind it. `parse_cmd` ends the command at the first
space that it finds in the buffer, which may be one of an earlier line.
-/

namespace Ninix.Usr

open ByteBuffer Vga Vga.Console

/-- `kernel_strcmp`, by the bytes that can be read from the pointers on. There is no result where a
terminator is missing. -/
def kernelStrcmp : List Byte → List Byte → Option ℤ
  | a :: dest, b :: src => if a = b ∧ a ≠ 0 then kernelStrcmp dest src else some (a.toInt - b.toInt)
  | _, _ => none

/-- The shell with what its commands act on: the console, the card and `GPIO_LED`. -/
structure Shell where
  psBuffer : List Byte
  psBufferIndex : ℕ
  console : Console
  card : Disk
  gpioLed : BitVec 32

/-- What a command finds: the counter of ticks, and what is on the stack where its buffers lie. The
8192 bytes of `sd_buffer` are taken to be there, though the stack of a task has 4096. -/
structure Moment where
  ticksHigh : ℕ
  ticksLow : ℕ
  stack : Bytes

inductive Command
  | clear
  | echo
  | gettime
  | syscall4
  | sdwi
  | sdr
  | sdwz
  deriving DecidableEq

namespace Command

/-- The names that a command is compared with, in this order. -/
def names : List (List Byte × Command) :=
  [(asciiText "clear", clear), (asciiText "echo", echo), (asciiText "gettime", gettime),
    (asciiText "syscall4", syscall4), (asciiText "sdwi", sdwi), (asciiText "sdr", sdr),
    (asciiText "sdwz", sdwz)]

/-- The comparisons of `parse_cmd`, up to the first name that is the same. -/
def search (buffer : List Byte) : List (List Byte × Command) → Option (Option Command)
  | [] => some none
  | (name, command) :: rest => (kernelStrcmp buffer (name ++ [0])).bind fun difference =>
      if difference = 0 then some (some command) else search buffer rest

end Command

/-- `sd_buffer[i] = i` for the first 512 bytes. -/
def counting (buf : Bytes) : Bytes := fun i => if i < 512 then UInt8.ofNat i else buf i

/-- A byte as the `int` it is passed as. -/
def charArg (value : UInt8) : Arg := .int (value.toBitVec.signExtend 32)

/-- The loop of `sdr`, which puts out the bytes of the numbers. -/
def putBytes (buf : Bytes) (console : Console) (places : List ℕ) : Option Console :=
  places.foldlM (fun console i =>
    (console.kernelPrintf [37, 100, 32, 0] [charArg (buf i)]).map Prod.snd) console

/-- The loop of `parse_cmd` that ends the command, from a place on: where it stops, and the
buffer. -/
def spaceLoop (buffer : List Byte) (i : ℕ) : ℕ → ℕ × List Byte
  | 0 => (i, buffer)
  | left + 1 =>
      if buffer[i]? = some 32 then (i, buffer.set i 0) else spaceLoop buffer (i + 1) left

namespace Shell

/-- `kernel_puts` of a string of the source. -/
def puts (s : Shell) (string : String) : Option Shell :=
  (s.console.kernelPuts 0xfff 0 (asciiText string ++ [0])).map fun result =>
    { s with console := result.2 }

/-- The commands of `parse_cmd`. What the card answers is not looked at. -/
def run (moment : Moment) (param : List Byte) (s : Shell) : Command → Option Shell
  | .clear => some { s with console := s.console.kernelClearScreen 31 }
  | .echo => (s.console.kernelPrintf [37, 115, 10, 0] [.str param]).map fun result =>
      { s with console := result.2 }
  | .gettime => (Time.getTime moment.ticksHigh moment.ticksLow moment.stack 10).bind fun buf =>
      let bytes := (List.range 10).map fun i => (buf i).toBitVec
      (s.console.kernelPrintf [37, 115, 10, 0] [.str bytes]).map fun result =>
        { s with console := result.2 }
  -- The trap of `test_syscall4` ends up in `syscall4` with the argument.
  | .syscall4 => some { s with gpioLed := 0xff }
  | .sdwi =>
      { s with card := (s.card.sdWriteSector 7 (counting moment.stack) 0).2 }.puts "sdwi\n"
  | .sdr =>
      let (_, buf, card) := s.card.sdReadSector 7 moment.stack 0
      (putBytes buf s.console (List.range 512)).map fun console =>
        { s with card, console := console.putchar ⟨10, 0xfff, 0⟩ }
  | .sdwz =>
      { s with card := (s.card.sdWriteSector 7 (fill moment.stack 0 512 0) 0).2 }.puts "sdwz\n"

/-- `parse_cmd` -/
def parseCmd (moment : Moment) (s : Shell) : Option Shell :=
  let console := s.console.putchar ⟨10, 0, 0⟩
  let (i, psBuffer) := spaceLoop s.psBuffer 0 63
  let param := if i = 63 then psBuffer else psBuffer.drop (i + 1)
  let s := { s with console, psBuffer }
  if psBuffer.head? = some 0 then some s
  else (Command.search psBuffer Command.names).bind fun
    | some command => s.run moment param command
    | none => (s.console.kernelPuts 0xfff 0 psBuffer).bind fun result =>
        { s with console := result.2 }.puts ": command not found\n"

/-- `ps_buffer[i] = c`, which has no result behind the buffer. -/
def store (s : Shell) (i : ℕ) (c : Byte) : Option Shell :=
  if i < s.psBuffer.length then some { s with psBuffer := s.psBuffer.set i c } else none

/-- `exit`, after which the shell goes on. -/
def exit (s : Shell) : Option Shell :=
  (s.store 0 0).bind fun s => (kernelMessage "\nPowerShell exit.\n" s.console).map fun console =>
    { s with psBufferIndex := 0, console }

/-- What `ps` does at the end of a line. -/
def enter (moment : Moment) (s : Shell) : Option Shell :=
  (s.store s.psBufferIndex 0).bind fun s =>
    (kernelStrcmp s.psBuffer (asciiText "exit" ++ [0])).bind fun difference =>
      (if difference = 0 then s.exit else s.parseCmd moment).bind fun s =>
        { s with psBufferIndex := 0 }.puts "PS>"

/-- A round of the loop of `ps`, with the character that has been typed. -/
def key (s : Shell) (typed : Byte × Moment) : Option Shell :=
  if typed.1 = 10 then s.enter typed.2
  else if typed.1 = 8 then
    if s.psBufferIndex ≠ 0 then
      some { s with psBufferIndex := s.psBufferIndex - 1, console := s.console.erase }
    else some s
  else if s.psBufferIndex < 63 then
    (s.store s.psBufferIndex typed.1).map fun stored =>
      { stored with
        psBufferIndex := s.psBufferIndex + 1
        console := s.console.putchar ⟨typed.1.signExtend 32, 0xfff, 0⟩ }
  else some s

/-- `ps` up to its loop. The buffer is in memory that is zero at first, and the key that is waited
for says nothing. -/
def start (console : Console) (card : Disk) (gpioLed : BitVec 32) : Option Shell :=
  (kernelMessage "Press any key to enter shell.\n" console).bind fun console =>
    (puts ⟨List.replicate 64 0, 0, console.kernelClearScreen 31, card, gpioLed⟩
      "PowerShell\n").bind fun s => s.puts "PS>"

/-- `ps` with the characters that are typed once it is in its loop. -/
def ps (console : Console) (card : Disk) (gpioLed : BitVec 32) (typed : List (Byte × Moment)) :
    Option Shell :=
  (start console card gpioLed).bind fun s => typed.foldlM key s

end Shell

/-! ## Lines and commands -/

/-- What a user sees: what has been put out since the screen was cleared, the line that is being
typed, the card and the lights. -/
structure Session where
  said : List Call
  line : List Byte
  card : Disk
  gpioLed : BitVec 32

/-- The first word of a line, up to a space. -/
def word (line : List Byte) : List Byte := line.takeWhile (· ≠ 32)

/-- What is behind the first space of a line. -/
def behind (line : List Byte) : List Byte := (line.dropWhile (· ≠ 32)).tail

/-- The command of a line, if its first word is the name of one. -/
def command (line : List Byte) : Option Command :=
  (Command.names.find? fun named => named.1 = word line).map Prod.snd

/-- The numbers of a sector, each with a space. -/
def numbers (buf : Bytes) : List Byte :=
  (List.range 512).flatMap fun i => intText ((buf i).toBitVec.signExtend 32) ++ [32]

/-- What `get_time_string` makes of the counter of ticks. -/
def timeText (moment : Moment) : List Byte :=
  (Time.clockString (Time.second moment.ticksHigh moment.ticksLow % 86400)).map UInt8.toBitVec

namespace Session

def sheet (s : Session) : Sheet := printed (s.said ++ textCalls 0xfff 0 s.line)

def say (s : Session) (string : List Byte) : Session :=
  { s with said := s.said ++ textCalls 0xfff 0 string }

/-- What a command does, given what is behind its name. -/
def run (moment : Moment) (param : List Byte) (s : Session) : Command → Session
  | .clear => { s with said := [] }
  | .echo => s.say (param ++ [10])
  | .gettime => s.say (timeText moment ++ [10])
  | .syscall4 => { s with gpioLed := 0xff }
  | .sdwi => { s with card := (s.card.sdWriteSector 7 UInt8.ofNat 0).2 }.say (asciiText "sdwi\n")
  | .sdr => { s with card := (s.card.sdReadSector 7 moment.stack 0).2.2 }.say
      (numbers (s.card.sdReadSector 7 moment.stack 0).2.1 ++ [10])
  | .sdwz => { s with card := (s.card.sdWriteSector 7 zeros 0).2 }.say (asciiText "sdwz\n")

/-- A line is done: what has been typed is there to stay. -/
def commit (s : Session) (call : Call) : Session :=
  { s with said := s.said ++ textCalls 0xfff 0 s.line ++ [call], line := [] }

/-- What the line asks for. -/
def obey (moment : Moment) (s : Session) : Session :=
  if s.line = asciiText "exit" then (s.commit ⟨10, 0xfff, 0⟩).say (asciiText "PowerShell exit.\n")
  else if word s.line = [] then s.commit ⟨10, 0, 0⟩
  else match command s.line with
    | some command => (s.commit ⟨10, 0, 0⟩).run moment (behind s.line) command
    | none => (s.commit ⟨10, 0, 0⟩).say (word s.line ++ asciiText ": command not found\n")

def key (s : Session) (typed : Byte × Moment) : Session :=
  if typed.1 = 10 then (s.obey typed.2).say (asciiText "PS>")
  else if typed.1 = 8 then { s with line := s.line.dropLast }
  else if s.line.length < 63 then { s with line := s.line ++ [typed.1] }
  else s

def start (card : Disk) (gpioLed : BitVec 32) : Session :=
  ⟨textCalls 0xfff 0 (asciiText "PowerShell\nPS>"), [], card, gpioLed⟩

/-- The keyboard gives no zero, and the shell is not given tabs and returns, which go to the
line as they are. A line with an `echo` has a space behind it. -/
def Allows (s : Session) (typed : Byte × Moment) : Prop :=
  typed.1 ≠ 0 ∧ typed.1 ≠ 9 ∧ typed.1 ≠ 13 ∧
    (typed.1 = 10 → command s.line = some .echo → 32 ∈ s.line)

instance (s : Session) (typed : Byte × Moment) : Decidable (s.Allows typed) :=
  inferInstanceAs (Decidable (_ ∧ _ ∧ _ ∧ (_ → _ → _)))

end Session

end Ninix.Usr
