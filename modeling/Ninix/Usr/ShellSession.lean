import Ninix.Library.Simulation
import Ninix.Usr.Shell

/-!
# Sessions

Whatever is typed, the buffer of the shell holds the line with a terminator somewhere behind it, and
the screen shows what has been put out with the line behind the prompt. So the shell does what the
lines say.
-/

namespace Ninix.Usr

open ByteBuffer Vga Vga.Console Simulation

/-! ## Names -/

/-- Strings that are terminated compare equal if they are. -/
theorem kernelStrcmp_text {a b : List Byte} (noNul : ∀ c ∈ a, c ≠ 0) (noNul' : ∀ c ∈ b, c ≠ 0)
    (x y : List Byte) :
    ∃ difference, kernelStrcmp (a ++ 0 :: x) (b ++ 0 :: y) = some difference ∧
      (difference = 0 ↔ a = b) := by
  have apart : ∀ {c d : Byte}, c ≠ d → c.toInt - d.toInt ≠ 0 := by
    intro c d ne same
    exact ne (BitVec.eq_of_toInt_eq (by omega))
  induction a generalizing b with
  | nil =>
      rcases b with _ | ⟨d, b⟩
      · exact ⟨0, rfl, by simp⟩
      · have ne : (0 : Byte) ≠ d := (noNul' d List.mem_cons_self).symm
        exact ⟨_, if_neg fun same => ne same.1, iff_of_false (apart ne) (List.cons_ne_nil d b).symm⟩
  | cons c a ih =>
      have notNul := noNul c List.mem_cons_self
      rcases b with _ | ⟨d, b⟩
      · exact ⟨_, if_neg fun same => notNul same.1,
          iff_of_false (apart notNul) (List.cons_ne_nil c a)⟩
      · by_cases same : c = d
        · subst same
          rcases ih (fun e mem => noNul e (List.mem_cons_of_mem c mem))
            (fun e mem => noNul' e (List.mem_cons_of_mem c mem)) with ⟨difference, ran, isZero⟩
          refine ⟨difference, ?_, ?_⟩
          · rw [List.cons_append, List.cons_append, kernelStrcmp, if_pos ⟨rfl, notNul⟩, ran]
          · rw [isZero, List.cons_inj_right]
        · refine ⟨_, if_neg fun equal => same equal.1, ?_⟩
          simp [apart same, same]

theorem Command.search_text {w : List Byte} (noNul : ∀ c ∈ w, c ≠ 0) (rest : List Byte)
    {names : List (List Byte × Command)} (noNul' : ∀ named ∈ names, ∀ c ∈ named.1, c ≠ 0) :
    Command.search (w ++ 0 :: rest) names =
      some ((names.find? fun named => named.1 = w).map Prod.snd) := by
  induction names with
  | nil => rfl
  | cons named names ih =>
      rcases kernelStrcmp_text noNul (noNul' named List.mem_cons_self) rest [] with
        ⟨difference, compared, isZero⟩
      rw [Command.search, compared, Option.bind_some,
        ih fun other mem => noNul' other (List.mem_cons_of_mem named mem)]
      by_cases same : w = named.1
      · rw [if_pos (isZero.mpr same), List.find?_cons_of_pos (by simp [same])]
        rfl
      · rw [if_neg (mt isZero.mp same), List.find?_cons_of_neg (by simp [Ne.symm same])]

theorem names_noNul : ∀ named ∈ Command.names, ∀ c ∈ named.1, c ≠ 0 := by decide

/-! ## Words -/

variable {line rest : List Byte}

theorem word_noNul (noNul : ∀ c ∈ line, c ≠ 0) : ∀ c ∈ word line, c ≠ 0 :=
  fun c mem => noNul c (List.takeWhile_subset _ mem)

theorem word_eq_self (noSpace : 32 ∉ line) : word line = line :=
  List.takeWhile_eq_self_iff.mpr fun c mem => by
    simp only [ne_eq, decide_not, Bool.not_eq_eq_eq_not, Bool.not_true, decide_eq_false_iff_not]
    rintro rfl
    exact noSpace mem

/-- A line with a space is its first word and what is behind the space. -/
theorem line_eq (hasSpace : 32 ∈ line) : line = word line ++ 32 :: behind line := by
  induction line with
  | nil => cases hasSpace
  | cons c line ih =>
      by_cases isSpace : c = 32
      · subst isSpace
        rfl
      · have later := (List.mem_cons.mp hasSpace).resolve_left (Ne.symm isSpace)
        have here : decide (c ≠ 32) = true := decide_eq_true isSpace
        rw [word, behind, List.takeWhile_cons_of_pos (p := fun d => decide (d ≠ 32)) here,
          List.dropWhile_cons_of_pos (p := fun d => decide (d ≠ 32)) here]
        exact congrArg (c :: ·) (ih later)

theorem search_command (noNul : ∀ c ∈ line, c ≠ 0) (rest : List Byte) :
    Command.search (word line ++ 0 :: rest) Command.names = some (command line) :=
  Command.search_text (word_noNul noNul) rest names_noNul

/-- The loop stops at the first space from a place on, if there is one. -/
theorem spaceLoop_spec (buffer : List Byte) (i left : ℕ) :
    ∃ j, i ≤ j ∧ j ≤ i + left ∧ (∀ k, i ≤ k → k < j → buffer[k]? ≠ some 32) ∧
      (j < i + left ∧ buffer[j]? = some 32 ∧ spaceLoop buffer i left = (j, buffer.set j 0) ∨
        j = i + left ∧ spaceLoop buffer i left = (j, buffer)) := by
  induction left generalizing i with
  | zero =>
      exact ⟨i, le_rfl, le_rfl, fun k lower upper => absurd upper (by omega), Or.inr ⟨rfl, rfl⟩⟩
  | succ left ih =>
      rw [spaceLoop]
      by_cases here : buffer[i]? = some 32
      · rw [if_pos here]
        exact ⟨i, le_rfl, by omega, fun k lower upper => absurd upper (by omega),
          Or.inl ⟨by omega, here, rfl⟩⟩
      · rw [if_neg here]
        rcases ih (i + 1) with ⟨j, lower, upper, first, stops⟩
        refine ⟨j, by omega, by omega, fun k lower' upper' => ?_, ?_⟩
        · rcases Nat.eq_or_lt_of_le lower' with rfl | later
          · exact here
          · exact first k later upper'
        · rcases stops with ⟨inside, isSpace, ran⟩ | ⟨atEnd, ran⟩
          · exact Or.inl ⟨by omega, isSpace, ran⟩
          · exact Or.inr ⟨by omega, ran⟩

/-- The buffer of a line is cut behind the first word. Of the line, what is behind the first space
is taken for the parameter. -/
theorem spaceLoop_line (fits : line.length ≤ 63) (size : (line ++ 0 :: rest).length = 64) :
    ∃ j rest', spaceLoop (line ++ 0 :: rest) 0 63 = (j, word line ++ 0 :: rest') ∧
      (word line ++ 0 :: rest').length = 64 ∧
      (∀ last, (line ++ 0 :: rest)[63]? = some last → (word line ++ 0 :: rest')[63]? = some last) ∧
      (32 ∈ line → j ≠ 63 ∧ (word line ++ 0 :: rest').drop (j + 1) = behind line ++ 0 :: rest) := by
  rcases spaceLoop_spec (line ++ 0 :: rest) 0 63 with ⟨j, _, _, first, stops⟩
  by_cases hasSpace : 32 ∈ line
  · -- The first space of the line is the first one in the buffer.
    have cut : line ++ 0 :: rest = word line ++ 32 :: (behind line ++ 0 :: rest) := by
      conv_lhs => rw [line_eq hasSpace]
      rw [List.append_assoc, List.cons_append]
    have isSpace : (line ++ 0 :: rest)[(word line).length]? = some 32 := by
      rw [cut, List.getElem?_append_right le_rfl, Nat.sub_self]
      rfl
    have shorter : (word line).length < line.length := by
      conv_rhs => rw [line_eq hasSpace]
      rw [List.length_append, List.length_cons]
      omega
    have isFirst : j = (word line).length := by
      rcases Nat.lt_trichotomy j (word line).length with before | same | after
      · exfalso
        rcases stops with ⟨_, found, _⟩ | ⟨atEnd, _⟩
        · rw [cut, List.getElem?_append_left before] at found
          have mem := List.mem_of_getElem? found
          have notSpace := List.mem_takeWhile_imp mem
          simp at notSpace
        · omega
      · exact same
      · exact absurd isSpace (first _ (Nat.zero_le _) after)
    subst isFirst
    rcases stops with ⟨_, _, ran⟩ | ⟨atEnd, _⟩
    · have done : (line ++ 0 :: rest).set (word line).length 0 =
          word line ++ 0 :: (behind line ++ 0 :: rest) := by
        rw [cut, List.set_append_right _ _ le_rfl, Nat.sub_self]
        rfl
      refine ⟨_, behind line ++ 0 :: rest, by rw [ran, done], ?_, fun last isLast => ?_,
        fun _ => ⟨by omega, ?_⟩⟩
      · rw [← done, List.length_set, size]
      · rw [← done, List.getElem?_set_ne (by omega), isLast]
      · rw [List.drop_append]
        simp
    · omega
  · rw [word_eq_self hasSpace]
    rcases stops with ⟨inside, isSpace, ran⟩ | ⟨atEnd, ran⟩
    · -- A space that is found is behind the terminator.
      have after : line.length < j := by
        by_contra notAfter
        rcases Nat.eq_or_lt_of_le (Nat.not_lt.mp notAfter) with same | before
        · rw [same, List.getElem?_append_right le_rfl, Nat.sub_self] at isSpace
          cases isSpace
        · rw [List.getElem?_append_left before] at isSpace
          exact hasSpace (List.mem_of_getElem? isSpace)
      have done : (line ++ 0 :: rest).set j 0 = line ++ 0 :: rest.set (j - line.length - 1) 0 := by
        rw [List.set_append_right _ _ after.le]
        obtain ⟨k, isK⟩ := Nat.exists_eq_add_of_lt after
        have isSucc : j - line.length = k + 1 := by omega
        rw [isSucc, List.set_cons_succ, Nat.add_sub_cancel]
      refine ⟨j, rest.set (j - line.length - 1) 0, by rw [ran, done], ?_, fun last isLast => ?_,
        fun mem => absurd mem hasSpace⟩
      · rw [← done, List.length_set, size]
      · rw [← done, List.getElem?_set_ne (by omega), isLast]
    · exact ⟨j, rest, ran, size, fun last isLast => isLast, fun mem => absurd mem hasSpace⟩

/-! ## What is put out -/

theorem printed_append (calls more : List Call) :
    printed (calls ++ more) = more.foldl Sheet.put (printed calls) := by
  rw [printed_eq, printed_eq, List.foldl_append]

theorem line_printed_newline (calls : List Call) {call : Call} (isNewline : call.ch = 10) :
    (printed (calls ++ [call])).line = [] := by
  rw [printed_append, List.foldl_cons, List.foldl_nil, Sheet.put, Call.mark, isNewline]
  rfl

theorem textCalls_append (first second : List Byte) :
    textCalls 0xfff 0 (first ++ second) = textCalls 0xfff 0 first ++ textCalls 0xfff 0 second :=
  List.map_append

/-- A console that shows what has been put out shows the text behind it too, once it has been put
out. -/
theorem shows_say {console : Console} {said : List Call} (shows' : console.Shows (printed said))
    (string : List Byte) : (putText 0xfff 0 string console).Shows
      (printed (said ++ textCalls 0xfff 0 string)) := by
  rw [printed_append]
  exact shows'.putchars _

theorem takeWhile_noNul {string : List Byte} (noNul : ∀ c ∈ string, c ≠ 0) (rest : List Byte) :
    (string ++ 0 :: rest).takeWhile (· ≠ 0) = string := by
  have passes : ∀ c ∈ string, decide (c ≠ 0) = true := fun c mem => decide_eq_true (noNul c mem)
  rw [List.takeWhile_append_of_pos passes]
  exact List.append_nil string

theorem kernelPrintf_string {string : List Byte} (noNul : ∀ c ∈ string, c ≠ 0) (rest : List Byte)
    (console : Console) :
    kernelPrintf [37, 115, 10, 0] [.str (string ++ 0 :: rest)] console =
      some (1, putText 0xfff 0 (string ++ [10]) console) := by
  rw [kernelPrintf_line (List.mem_append_right _ List.mem_cons_self), takeWhile_noNul noNul]

/-- The numbers of `sdr` -/
theorem putBytes_text (buf : Bytes) (console : Console) (places : List ℕ) :
    putBytes buf console places = some (putText 0xfff 0
      (places.flatMap fun i => intText ((buf i).toBitVec.signExtend 32) ++ [32]) console) := by
  induction places generalizing console with
  | nil => rfl
  | cons i places ih =>
      have space : (32 : Byte) ≠ 0 ∧ (32 : Byte) ≠ 37 := by decide
      have first : kernelPrintf [37, 100, 32, 0] [charArg (buf i)] console =
          some (1, putText 0xfff 0 (intText ((buf i).toBitVec.signExtend 32) ++ [32]) console) :=
        kernelPrintf_pieces [.int, .literal 32 space] rfl console
      rw [List.flatMap_cons, putText_append, ← ih, putBytes, List.foldlM_cons, first]
      rfl

theorem toBitVec_ofNat_ne_zero {n : ℕ} (positive : 0 < n) (small : n < 256) :
    (UInt8.ofNat n).toBitVec ≠ 0 := by
  intro isZero
  have same : n % 256 = 0 := by simpa using congrArg BitVec.toNat isZero
  omega

theorem twoDigits_noNul {value : ℕ} (small : value < 100) :
    ∀ c ∈ Time.twoDigits value, c.toBitVec ≠ 0 := by
  intro c mem
  rcases List.mem_cons.mp mem with rfl | mem
  · exact toBitVec_ofNat_ne_zero (by omega) (by omega)
  · rw [List.mem_singleton.mp mem]
    exact toBitVec_ofNat_ne_zero (by omega) (by omega)

theorem timeText_noNul (moment : Moment) : ∀ c ∈ timeText moment, c ≠ 0 := by
  have below : Time.second moment.ticksHigh moment.ticksLow % 86400 < 86400 :=
    Nat.mod_lt _ (by decide)
  intro c mem
  rcases List.mem_map.mp mem with ⟨digit, digitMem, rfl⟩
  rcases List.mem_append.mp digitMem with inFront | inSeconds
  · rcases List.mem_append.mp inFront with inHours | inMinutes
    · exact twoDigits_noNul (by omega) _ inHours
    · rcases List.mem_cons.mp inMinutes with rfl | inMinutes
      · decide
      · exact twoDigits_noNul (by omega) _ inMinutes
  · rcases List.mem_cons.mp inSeconds with rfl | inSeconds
    · decide
    · exact twoDigits_noNul (by omega) _ inSeconds

/-- The buffer of `gettime` holds the time with a terminator. -/
theorem getTime_bytes (moment : Moment) (stack : Bytes) : ∃ buf rest,
    Time.getTime moment.ticksHigh moment.ticksLow stack 10 = some buf ∧
      (List.range 10).map (fun i => (buf i).toBitVec) = timeText moment ++ 0 :: rest := by
  have written := Time.putTime_written (Time.second moment.ticksHigh moment.ticksLow) stack
  refine ⟨_, [(stack 9).toBitVec], if_pos (by decide), ?_⟩
  have each : ∀ i, Time.getTimeString moment.ticksHigh moment.ticksLow stack i = _ := written
  have places : List.range 10 = [0, 1, 2, 3, 4, 5, 6, 7, 8, 9] := rfl
  rw [places]
  simp only [List.map_cons, List.map_nil, Function.update_apply, each]
  rfl

/-- Of the buffer that is written to a sector only the first 512 bytes matter. -/
theorem sdWriteSector_congr (card : Disk) (id : ℕ) {buf buf' : Bytes}
    (same : ∀ k < 512, buf k = buf' k) :
    card.sdWriteSector id buf 0 = card.sdWriteSector id buf' 0 := by
  have blits : blit (card.sector id) 0 buf 0 sectorBytes =
      blit (card.sector id) 0 buf' 0 sectorBytes := by
    funext k
    unfold blit
    split_ifs with inside
    · rw [Nat.sub_zero, Nat.zero_add]
      exact same k (by simpa using inside)
    · rfl
  rw [Disk.sdWriteSector, Disk.sdWriteSector, blits]

/-! ## Commands -/

/-- The shell at the beginning of a line of the screen. -/
structure Fresh (s : Shell) (session : Session) : Prop where
  screen : s.console.Shows (printed session.said)
  atMargin : (printed session.said).line = []
  done : session.line = []
  card : s.card = session.card
  gpioLed : s.gpioLed = session.gpioLed

variable {s : Shell} {session : Session} {moment : Moment}

/-- A line that is put out. -/
theorem Fresh.say (fresh : Fresh s session) (string : List Byte) :
    Fresh { s with console := putText 0xfff 0 (string ++ [10]) s.console }
      (session.say (string ++ [10])) where
  screen := shows_say fresh.screen _
  atMargin := by
    rw [Session.say, textCalls_append, ← List.append_assoc]
    exact line_printed_newline _ rfl
  done := fresh.done
  card := fresh.card
  gpioLed := fresh.gpioLed

/-- A line that is done is left for the next one. -/
theorem Fresh.of_commit {call : Call} (isNewline : call.ch = 10)
    (screen : s.console.Displays session.sheet) (card : s.card = session.card)
    (gpioLed : s.gpioLed = session.gpioLed) :
    Fresh { s with console := s.console.putchar call } (session.commit call) := by
  refine ⟨?_, line_printed_newline _ isNewline, rfl, card, gpioLed⟩
  rw [Session.commit, printed_append]
  exact screen.newline isNewline []

theorem puts_text (s : Shell) {string : String} (noNul : ∀ c ∈ asciiText string, c ≠ 0) :
    s.puts string = some { s with console := putText 0xfff 0 (asciiText string) s.console } := by
  rw [Shell.puts, kernelPuts_text noNul]
  rfl

/-- Each command does what it does in the session, if `echo` is given a string. -/
theorem run_spec (moment : Moment) (fresh : Fresh s session) {param given rest : List Byte}
    (command : Command) (isParam : command = .echo → param = given ++ 0 :: rest)
    (noNul : ∀ c ∈ given, c ≠ 0) :
    ∃ s', s.run moment param command = some s' ∧ s'.psBuffer = s.psBuffer ∧
      Fresh s' (session.run moment given command) := by
  cases command with
  | clear =>
      exact ⟨_, rfl, rfl, shows_clearScreen s.console (by decide), rfl, fresh.done, fresh.card,
        fresh.gpioLed⟩
  | echo =>
      rw [isParam rfl, Shell.run, kernelPrintf_string noNul]
      exact ⟨_, rfl, rfl, fresh.say given⟩
  | gettime =>
      rcases getTime_bytes moment moment.stack with ⟨buf, behindTime, got, isTime⟩
      have printed := kernelPrintf_string (timeText_noNul moment) behindTime s.console
      refine ⟨_, ?_, ?_, fresh.say (timeText moment)⟩
      · simp only [Shell.run, got, Option.bind_some, isTime, printed, Option.map_some]
      · rfl
  | syscall4 =>
      exact ⟨_, rfl, rfl, fresh.screen, fresh.atMargin, fresh.done, fresh.card, rfl⟩
  | sdwi =>
      have written : s.card.sdWriteSector 7 (counting moment.stack) 0 =
          session.card.sdWriteSector 7 UInt8.ofNat 0 := by
        rw [fresh.card]
        exact sdWriteSector_congr _ 7 fun k inside => if_pos inside
      rw [Shell.run, puts_text _ (by decide), written]
      exact ⟨_, rfl, rfl, { fresh.say (asciiText "sdwi") with card := rfl }⟩
  | sdr =>
      rcases isRead : session.card.sdReadSector 7 moment.stack 0 with ⟨code, buf, card⟩
      have put := shows_say fresh.screen (numbers buf ++ [10])
      rw [putText_append] at put
      rw [Shell.run, fresh.card, isRead, Session.run, isRead]
      dsimp only
      rw [putBytes_text]
      exact ⟨_, rfl, rfl, { fresh.say (numbers buf) with card := rfl, screen := put }⟩
  | sdwz =>
      have written : s.card.sdWriteSector 7 (fill moment.stack 0 512 0) 0 =
          session.card.sdWriteSector 7 zeros 0 := by
        rw [fresh.card]
        refine sdWriteSector_congr _ 7 fun k inside => if_pos ⟨Nat.zero_le k, ?_⟩
        rwa [Nat.zero_add]
      rw [Shell.run, puts_text _ (by decide), written]
      exact ⟨_, rfl, rfl, { fresh.say (asciiText "sdwz") with card := rfl }⟩

/-- The buffer holds a line with its terminator, and the last of its 64 bytes is a terminator. -/
structure Holds (buffer line : List Byte) : Prop where
  terminated : ∃ rest, buffer = line ++ 0 :: rest
  size : buffer.length = 64
  last : buffer[63]? = some 0

/-- `parse_cmd` does what the line says, if it is not `exit`. -/
theorem parseCmd_spec (moment : Moment) {line : List Byte} (holds : Holds s.psBuffer line)
    (fits : line.length ≤ 63) (noNul : ∀ c ∈ line, c ≠ 0) (isLine : session.line = line)
    (notExit : line ≠ asciiText "exit")
    (given : command line = some .echo → 32 ∈ line)
    (screen : s.console.Displays session.sheet) (card : s.card = session.card)
    (gpioLed : s.gpioLed = session.gpioLed) :
    ∃ s', s.parseCmd moment = some s' ∧ s'.psBuffer.length = 64 ∧ s'.psBuffer[63]? = some 0 ∧
      Fresh s' (session.obey moment) := by
  subst isLine
  rcases holds with ⟨⟨rest, isBuffer⟩, size, last⟩
  rw [isBuffer] at size last
  rcases spaceLoop_line fits size with ⟨j, rest', looped, size', last', isParam⟩
  have wordNoNul := word_noNul noNul
  have fresh : ∀ psBuffer, Fresh
      { s with console := s.console.putchar ⟨10, 0, 0⟩, psBuffer } (session.commit ⟨10, 0, 0⟩) := by
    intro psBuffer
    exact .of_commit (s := { s with psBuffer }) rfl screen card gpioLed
  rw [Shell.parseCmd, isBuffer, looped, Session.obey, if_neg notExit]
  dsimp only
  by_cases noWord : word session.line = []
  · rw [if_pos noWord, if_pos (by rw [noWord]; rfl)]
    exact ⟨_, rfl, size', last' 0 last, fresh _⟩
  · have isWord : ¬(word session.line ++ 0 :: rest').head? = some 0 := by
      rw [List.head?_append_of_ne_nil _ noWord]
      intro isNul
      exact wordNoNul 0 (List.mem_of_head? isNul) rfl
    rw [if_neg noWord, if_neg isWord, search_command noNul, Option.bind_some]
    cases isCommand : command session.line with
    | some named =>
        dsimp only
        have param : named = .echo → (if j = 63 then word session.line ++ 0 :: rest'
            else (word session.line ++ 0 :: rest').drop (j + 1)) =
              behind session.line ++ 0 :: rest := by
          intro isEcho
          rcases isParam (given (by rw [isCommand, isEcho])) with ⟨inside, isBehind⟩
          rw [if_neg inside, isBehind]
        have behindNoNul : ∀ c ∈ behind session.line, c ≠ 0 := fun c mem =>
          noNul c (List.dropWhile_subset _ (List.mem_of_mem_tail mem))
        rcases run_spec moment (fresh _) named param behindNoNul with
          ⟨s', ran, sameBuffer, fresh'⟩
        refine ⟨s', ran, ?_, ?_, fresh'⟩
        · rw [sameBuffer]
          exact size'
        · rw [sameBuffer]
          exact last' 0 last
    | none =>
        dsimp only
        rw [kernelPuts_text wordNoNul, Option.bind_some, puts_text _ (by decide)]
        refine ⟨_, rfl, size', last' 0 last, ?_⟩
        have said := (fresh (word session.line ++ 0 :: rest')).say
          (word session.line ++ asciiText ": command not found")
        rw [List.append_assoc, putText_append] at said
        exact said

/-- `exit` says so at the beginning of a line. -/
theorem exit_spec (size : s.psBuffer.length = 64) (last : s.psBuffer[63]? = some 0)
    (screen : s.console.Displays session.sheet) (card : s.card = session.card)
    (gpioLed : s.gpioLed = session.gpioLed) :
    ∃ s', s.exit = some s' ∧ s'.psBuffer.length = 64 ∧ s'.psBuffer[63]? = some 0 ∧
      Fresh s' ((session.commit ⟨10, 0xfff, 0⟩).say (asciiText "PowerShell exit.\n")) := by
  have isMessage : asciiText "\nPowerShell exit.\n" =
      [10] ++ asciiText "PowerShell exit.\n" := by decide
  have isLine : asciiText "PowerShell exit.\n" = asciiText "PowerShell exit." ++ [10] := by decide
  have newline : Fresh { s with
      psBuffer := s.psBuffer.set 0 0
      psBufferIndex := 0
      console := s.console.putchar ⟨10, 0xfff, 0⟩ } (session.commit ⟨10, 0xfff, 0⟩) :=
    .of_commit (s := { s with psBuffer := s.psBuffer.set 0 0, psBufferIndex := 0 }) rfl screen card
      gpioLed
  have fresh := newline.say (asciiText "PowerShell exit.")
  rw [Shell.exit, Shell.store, if_pos (by rw [size]; decide), Option.bind_some,
    kernelMessage_text (by decide), Option.map_some, isMessage, putText_append, isLine]
  refine ⟨_, rfl, ?_, ?_, fresh⟩
  · show (s.psBuffer.set 0 0).length = 64
    rw [List.length_set, size]
  · show (s.psBuffer.set 0 0)[63]? = some 0
    rw [List.getElem?_set_ne (by decide), last]

/-! ## Lines -/

/-- Bytes that differ do so as the numbers they are passed as. -/
theorem signExtend_ne {c d : Byte} (ne : c ≠ d) : c.signExtend 32 ≠ d.signExtend 32 := by
  intro same
  have sameInt := congrArg BitVec.toInt same
  rw [BitVec.toInt_signExtend_of_le (by decide), BitVec.toInt_signExtend_of_le (by decide)]
    at sameInt
  exact ne (BitVec.eq_of_toInt_eq sameInt)

/-- A character that goes to the line and is shown as it is. -/
def Plain (c : Byte) : Prop := c ≠ 0 ∧ c ≠ 9 ∧ c ≠ 10 ∧ c ≠ 13

theorem Plain.call {c : Byte} (plain : Plain c) :
    c.signExtend 32 ≠ 13 ∧ c.signExtend 32 ≠ 10 ∧ c.signExtend 32 ≠ 9 := by
  rcases plain with ⟨_, notTab, notNewline, notReturn⟩
  exact ⟨signExtend_ne notReturn, signExtend_ne notNewline, signExtend_ne notTab⟩

/-- A character more in the line of the printout. -/
theorem printed_snoc (said : List Call) (line : List Byte) (c : Byte) :
    printed (said ++ textCalls 0xfff 0 (line ++ [c])) =
      (printed (said ++ textCalls 0xfff 0 line)).put ⟨c.signExtend 32, 0xfff, 0⟩ := by
  rw [textCalls_append, ← List.append_assoc, printed_append]
  rfl

theorem length_line_printed (said : List Call) {string : List Byte}
    (plain : ∀ c ∈ string, Plain c) (room : (printed said).line.length + string.length ≤ 80) :
    (printed (said ++ textCalls 0xfff 0 string)).line.length =
      (printed said).line.length + string.length := by
  induction string using List.reverseRecOn with
  | nil =>
      rw [textCalls, List.map_nil, List.append_nil]
      rfl
  | append_singleton string c ih =>
      rw [List.length_append, List.length_singleton] at room
      have front := ih (fun d mem => plain d (List.mem_append_left _ mem)) (by omega)
      have isPlain := plain c (List.mem_append_right _ List.mem_cons_self)
      have hasRoom : (printed (said ++ textCalls 0xfff 0 string)).line.length < 80 := by omega
      rw [printed_snoc, put_plain isPlain.call hasRoom, List.length_append, List.length_singleton]
      show (_ ++ [_]).length = _
      rw [List.length_append, List.length_singleton, front]
      rfl

/-- The shell and the session it is in: the buffer begins with the line and ends with a terminator,
and the screen shows the line behind the prompt. -/
structure Related (s : Shell) (session : Session) : Prop where
  size : s.psBuffer.length = 64
  last : s.psBuffer[63]? = some 0
  index : s.psBufferIndex = session.line.length
  fits : session.line.length ≤ 63
  stored : s.psBuffer.take session.line.length = session.line
  plain : ∀ c ∈ session.line, Plain c
  prompted : (printed session.said).line.length = 3
  screen : s.console.Displays session.sheet
  card : s.card = session.card
  gpioLed : s.gpioLed = session.gpioLed

/-- The prompt is put out at the beginning of a line. -/
theorem Fresh.prompt (fresh : Fresh s session) (size : s.psBuffer.length = 64)
    (last : s.psBuffer[63]? = some 0) :
    ∃ s', Shell.puts { s with psBufferIndex := 0 } "PS>" = some s' ∧
      Related s' (session.say (asciiText "PS>")) := by
  have isPlain : ∀ c ∈ asciiText "PS>", Plain c := by
    unfold Plain
    decide
  have done : (session.say (asciiText "PS>")).line = [] := fresh.done
  have noLine : (session.say (asciiText "PS>")).line.length = 0 := by rw [done, List.length_nil]
  refine ⟨_, puts_text _ (by decide), size, last, noLine.symm, ?_, ?_, ?_, ?_, ?_, fresh.card,
    fresh.gpioLed⟩
  · omega
  · rw [noLine, done, List.take_zero]
  · rw [done]
    exact fun c mem => absurd mem List.not_mem_nil
  · have atMargin := fresh.atMargin
    rw [Session.say, length_line_printed _ isPlain (by rw [atMargin]; decide), atMargin]
    rfl
  · rw [Session.sheet, done, textCalls, List.map_nil, List.append_nil]
    exact (shows_say fresh.screen _).displays

/-- The terminator is written behind the line. -/
theorem Related.terminate (related : Related s session) :
    Holds (s.psBuffer.set s.psBufferIndex 0) session.line := by
  have size := related.size
  have fits := related.fits
  rw [related.index]
  refine ⟨⟨s.psBuffer.drop (session.line.length + 1), ?_⟩, ?_, ?_⟩
  · rw [List.set_eq_take_append_cons_drop, if_pos (by omega), related.stored]
  · rw [List.length_set, size]
  · rcases Nat.eq_or_lt_of_le fits with isEnd | inside
    · rw [isEnd, List.getElem?_set_self (by omega)]
    · rw [List.getElem?_set_ne (by omega), related.last]

/-- A line that is done is obeyed, and another one is asked for. -/
theorem Related.enter (related : Related s session)
    (given : command session.line = some .echo → 32 ∈ session.line) :
    ∃ s', s.enter moment = some s' ∧
      Related s' ((session.obey moment).say (asciiText "PS>")) := by
  have noNul : ∀ c ∈ session.line, c ≠ 0 := fun c mem => (related.plain c mem).1
  have holds := related.terminate
  have isInside : s.psBufferIndex < s.psBuffer.length := by
    have fits := related.fits
    rw [related.index, related.size]
    omega
  rcases holds.terminated with ⟨rest, isBuffer⟩
  rcases kernelStrcmp_text noNul (show ∀ c ∈ asciiText "exit", c ≠ 0 by decide) rest [] with
    ⟨difference, compared, isZero⟩
  rw [Shell.enter, Shell.store, if_pos isInside, Option.bind_some]
  dsimp only
  rw [isBuffer, compared, Option.bind_some, ← isBuffer]
  by_cases isExit : session.line = asciiText "exit"
  · rcases exit_spec (s := { s with psBuffer := s.psBuffer.set s.psBufferIndex 0 }) holds.size
      holds.last related.screen related.card related.gpioLed with ⟨s', ran, size, last, fresh⟩
    rw [if_pos (isZero.mpr isExit), ran, Option.bind_some, Session.obey, if_pos isExit]
    exact fresh.prompt size last
  · rw [if_neg (mt isZero.mp isExit)]
    rcases parseCmd_spec (s := { s with psBuffer := s.psBuffer.set s.psBufferIndex 0 }) moment
      holds related.fits noNul rfl isExit given related.screen related.card
      related.gpioLed with ⟨s', ran, size, last, fresh⟩
    rw [ran, Option.bind_some]
    exact fresh.prompt size last

/-- The last character of the line is taken back, if there is one. -/
theorem Related.back (related : Related s session) :
    ∃ s', (if s.psBufferIndex ≠ 0 then
        some { s with psBufferIndex := s.psBufferIndex - 1, console := s.console.erase }
      else some s) = some s' ∧ Related s' { session with line := session.line.dropLast } := by
  rcases session with ⟨said, line, card, gpioLed⟩
  have index : s.psBufferIndex = line.length := related.index
  rcases List.eq_nil_or_concat' line with rfl | ⟨front, c, rfl⟩
  · rw [index, if_neg (by simp)]
    exact ⟨s, rfl, related⟩
  · have fits : (front ++ [c]).length ≤ 63 := related.fits
    have stored : s.psBuffer.take (front ++ [c]).length = front ++ [c] := related.stored
    have plain : ∀ d ∈ front ++ [c], Plain d := related.plain
    have prompted : (printed said).line.length = 3 := related.prompted
    have plainFront : ∀ d ∈ front, Plain d := fun d mem => plain d (List.mem_append_left _ mem)
    have isPlain := plain c (List.mem_append_right _ List.mem_cons_self)
    rw [List.length_append, List.length_singleton] at index fits stored
    have length := length_line_printed said plainFront (by omega)
    have hasRoom : (printed (said ++ textCalls 0xfff 0 front)).line.length < 80 := by omega
    have screen : s.console.Displays (printed (said ++ textCalls 0xfff 0 (front ++ [c]))) :=
      related.screen
    rw [printed_snoc, put_plain isPlain.call hasRoom] at screen
    rw [if_pos (by omega), List.dropLast_concat]
    refine ⟨_, rfl, related.size, related.last, ?_, ?_, ?_, plainFront, prompted, screen.erase,
      related.card, related.gpioLed⟩
    · show s.psBufferIndex - 1 = front.length
      omega
    · show front.length ≤ 63
      omega
    · show s.psBuffer.take front.length = front
      have shorter := congrArg (List.take front.length) stored
      rwa [List.take_take, Nat.min_eq_left (Nat.le_succ _), List.take_left' rfl] at shorter

/-- A character goes to the end of the line, if that is not full. -/
theorem Related.type (related : Related s session) {c : Byte} (plain : Plain c) :
    ∃ s', (if s.psBufferIndex < 63 then
        (s.store s.psBufferIndex c).map fun stored =>
          { stored with
            psBufferIndex := s.psBufferIndex + 1
            console := s.console.putchar ⟨c.signExtend 32, 0xfff, 0⟩ }
      else some s) = some s' ∧
        Related s' (if session.line.length < 63 then { session with line := session.line ++ [c] }
          else session) := by
  have index := related.index
  have size := related.size
  rw [index]
  by_cases room : session.line.length < 63
  · have length := length_line_printed session.said related.plain
      (by rw [related.prompted]; omega)
    have hasRoom : session.sheet.line.length < 80 := by
      rw [Session.sheet, length, related.prompted]
      omega
    rw [if_pos room, if_pos room, Shell.store, if_pos (by omega), Option.map_some]
    refine ⟨_, rfl, ?_, ?_, ?_, ?_, ?_, ?_, related.prompted, ?_, related.card, related.gpioLed⟩
    · show (s.psBuffer.set _ c).length = 64
      rw [List.length_set, size]
    · show (s.psBuffer.set _ c)[63]? = some 0
      rw [List.getElem?_set_ne (by omega), related.last]
    · show session.line.length + 1 = (session.line ++ [c]).length
      rw [List.length_append, List.length_singleton]
    · show (session.line ++ [c]).length ≤ 63
      rw [List.length_append, List.length_singleton]
      omega
    · show (s.psBuffer.set _ c).take (session.line ++ [c]).length = session.line ++ [c]
      rw [List.length_append, List.length_singleton, List.take_add_one,
        List.take_set_of_le le_rfl, related.stored, List.getElem?_set_self (by omega)]
      rfl
    · intro d mem
      rcases List.mem_append.mp mem with inLine | isLast
      · exact related.plain d inLine
      · rw [List.mem_singleton.mp isLast]
        exact plain
    · show (s.console.putchar _).Displays (printed (session.said ++ textCalls 0xfff 0 _))
      rw [printed_snoc]
      exact related.screen.type plain.call hasRoom
  · rw [if_neg room, if_neg room]
    exact ⟨s, rfl, related⟩

theorem Related.key (related : Related s session) {typed : Byte × Moment}
    (allows : session.Allows typed) :
    ∃ s', s.key typed = some s' ∧ Related s' (session.key typed) := by
  rcases allows with ⟨notNul, notTab, notReturn, given⟩
  rw [Shell.key, Session.key]
  by_cases isEnter : typed.1 = 10
  · rw [if_pos isEnter, if_pos isEnter]
    exact related.enter (given isEnter)
  · rw [if_neg isEnter, if_neg isEnter]
    by_cases isBack : typed.1 = 8
    · rw [if_pos isBack, if_pos isBack]
      exact related.back
    · rw [if_neg isBack, if_neg isBack]
      exact related.type ⟨notNul, notTab, isEnter, notReturn⟩

/-- The shell begins with an empty line behind its first prompt. -/
theorem start_related (console : Console) (card : Disk) (gpioLed : BitVec 32) :
    ∃ s, Shell.start console card gpioLed = some s ∧ Related s (Session.start card gpioLed) := by
  let cleared (console : Console) : Shell :=
    ⟨List.replicate 64 0, 0, console.kernelClearScreen 31, card, gpioLed⟩
  have fresh (console : Console) : Fresh (cleared console) ⟨[], [], card, gpioLed⟩ :=
    ⟨shows_clearScreen console (by decide), rfl, rfl, rfl, rfl⟩
  have said := (fresh (putText 0xfff 0 (asciiText "Press any key to enter shell.\n") console)).say
    (asciiText "PowerShell")
  rcases said.prompt rfl rfl with ⟨s, put, related⟩
  refine ⟨s, ?_, related⟩
  rw [Shell.start, kernelMessage_text (by decide), Option.bind_some, puts_text _ (by decide),
    Option.bind_some]
  exact put

/-- As long as nothing but characters that are shown as they are is typed, and `echo` is given
something, the shell does what the lines say. It never leaves the 64 bytes of its buffer, what has
been typed of a line is in it, up to 63 characters and without those that have been taken back, and
the screen shows what has been put out with the line behind the prompt. -/
theorem ps_obeys (console : Console) (card : Disk) (gpioLed : BitVec 32)
    {typed : List (Byte × Moment)}
    (allowed : Meets Session.key Session.Allows (Session.start card gpioLed) typed) :
    ∃ s, Shell.ps console card gpioLed typed = some s ∧
      s.psBuffer.take s.psBufferIndex =
        (typed.foldl Session.key (Session.start card gpioLed)).line ∧
      s.console.Displays (typed.foldl Session.key (Session.start card gpioLed)).sheet ∧
      s.card = (typed.foldl Session.key (Session.start card gpioLed)).card ∧
      s.gpioLed = (typed.foldl Session.key (Session.start card gpioLed)).gpioLed := by
  rcases start_related console card gpioLed with ⟨s, started, related⟩
  have keys : ∀ s session typed, Related s session → session.Allows typed →
      ∃ s', s.key typed = some s' ∧ Related s' (session.key typed) :=
    fun s session typed related allows => related.key allows
  rcases foldlM_refines Related keys related allowed with ⟨final, ran, lastly⟩
  refine ⟨final, ?_, ?_, lastly.screen, lastly.card, lastly.gpioLed⟩
  · rw [Shell.ps, started]
    exact ran
  · rw [lastly.index]
    exact lastly.stored

/-- A command that is corrected while it is typed, and the beginning of another one -/
def echoTyped : List (Byte × Moment) :=
  (asciiText "exi" ++ 8 :: 8 :: asciiText "cho a b\nq").map fun c => (c, ⟨0, 0, zeros⟩)

/-- A card of zeros -/
def blankCard : Disk := ⟨fun _ => zeros, fun _ _ => 0, 0, []⟩

theorem ps_obeys_echo : ∃ s,
    Shell.ps ⟨⟨0, 0, 31, 0⟩, fun _ => 0⟩ blankCard 0 echoTyped = some s ∧
      s.psBuffer.take s.psBufferIndex = asciiText "q" ∧
      s.console.Displays (echoTyped.foldl Session.key (Session.start blankCard 0)).sheet := by
  have allowed : Meets Session.key Session.Allows (Session.start blankCard 0) echoTyped := by
    decide
  rcases ps_obeys ⟨⟨0, 0, 31, 0⟩, fun _ => 0⟩ _ 0 allowed with ⟨s, ran, line, screen, _, _⟩
  exact ⟨s, ran, line, screen⟩

end Ninix.Usr
