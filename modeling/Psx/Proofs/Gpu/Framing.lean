import Psx.Gpu.Port
import Psx.Proofs.Gpu.Grammar

/-!
# Framing of the drawing port

What a stream of words does to a port that was idle, told from the packets that the stream is cut
into and without the framer. The framer stands where the packet that has begun says (`pending`), a
register holds what the last command for it set, and a copy to the host has the size that the last
such packet gave (`settled`); attention is asked for if a packet asks for it and nobody did before
(`asked`). Words that are not the first of a packet have no say in any of it.

`feed_begun` and `feed_whole` say what one word does to the framer, `writeGp0_begun` and
`writeGp0_whole` what it does to the port. Main statement: `framing`, for any stream.
-/

namespace Psx

namespace Gpu

/-! ### The framer -/

/-- Where the framer stands in a packet that has begun. -/
def pending : List UInt32 → Packet
  | [] => .idle
  | first :: params =>
    let opcode := Packet.opcodeOf first
    if isPolyline opcode then .polyline (parameters opcode - params.length)
    else if params.length < parameters opcode then
      .command opcode (parameters opcode - params.length)
    else .imageData (due first params - params.length)

/-- What a packet does once it is whole. -/
def effectOf : List UInt32 → Effect
  | [first] => .execute (Packet.opcodeOf first) first
  | [first, _, size] =>
    if isDownload (Packet.opcodeOf first) then .imageRead (dataWords size) else .none
  | _ => .none

section
variable {first word : UInt32} {params l : List UInt32}

theorem first_polyline (h : isPolyline (Packet.opcodeOf word) = true) :
    Packet.first word = (.polyline (parameters (Packet.opcodeOf word)), .none) := by
  unfold Packet.first
  simp [packetLength_eq, h]

theorem first_alone (h : isPolyline (Packet.opcodeOf word) = false)
    (hn : parameters (Packet.opcodeOf word) = 0) :
    Packet.first word = (.idle, .execute (Packet.opcodeOf word) word) := by
  unfold Packet.first
  simp [packetLength_eq, h, hn]

theorem first_command (h : isPolyline (Packet.opcodeOf word) = false)
    (hn : 0 < parameters (Packet.opcodeOf word)) : Packet.first word =
      (.command (Packet.opcodeOf word) (parameters (Packet.opcodeOf word)), .none) := by
  obtain ⟨n, hn⟩ := Nat.exists_eq_add_of_lt hn
  unfold Packet.first
  simp [packetLength_eq, h, hn]

theorem complete_eq (opcode : UInt8) (last : UInt32) : Packet.complete opcode last =
    if isUpload opcode then (.imageData (dataWords last), .none)
    else if isDownload opcode then (.idle, .imageRead (dataWords last))
    else (.idle, .none) := by
  unfold Packet.complete isUpload isDownload
  simp only [UInt8.lt_iff_toNat_lt, imageWords_eq, Bool.and_eq_true, decide_eq_true_eq,
    UInt8.reduceToNat]
  split_ifs <;> first | rfl | omega

theorem pending_polyline (h : isPolyline (Packet.opcodeOf first) = true) :
    pending (first :: params) =
      .polyline (parameters (Packet.opcodeOf first) - params.length) := by
  rw [pending, if_pos h]

theorem pending_command (h : isPolyline (Packet.opcodeOf first) = false)
    (hlt : params.length < parameters (Packet.opcodeOf first)) : pending (first :: params) =
      .command (Packet.opcodeOf first) (parameters (Packet.opcodeOf first) - params.length) := by
  rw [pending, if_neg (by simp [h]), if_pos hlt]

theorem pending_image (h : isPolyline (Packet.opcodeOf first) = false)
    (hge : parameters (Packet.opcodeOf first) ≤ params.length) :
    pending (first :: params) = .imageData (due first params - params.length) := by
  rw [pending, if_neg (by simp [h]), if_neg (by omega)]

/-- Words beyond the parameters come with an image alone. -/
theorem isUpload_of_begun (h : isPolyline (Packet.opcodeOf first) = false)
    (hb : Begun (first :: params)) (hge : parameters (Packet.opcodeOf first) ≤ params.length) :
    isUpload (Packet.opcodeOf first) = true := by
  rw [begun_cons h] at hb
  unfold due at hb
  split_ifs at hb with himage
  · exact himage
  · omega

theorem due_concat (h : 2 ≤ params.length) : due first (params ++ [word]) = due first params := by
  rcases due_append first params [word] with heq | ⟨hlt, -⟩
  · exact heq
  · omega

/-! One word where no packet has begun, in a polyline, among the parameters of a command and in an
image: first a word that does not end its packet, then one that does. -/

theorem first_begun (h : Begun [word]) : Packet.first word = (pending [word], .none) := by
  cases hline : isPolyline (Packet.opcodeOf word) with
  | true => rw [pending_polyline hline, first_polyline hline]; rfl
  | false =>
    rcases Nat.eq_zero_or_pos (parameters (Packet.opcodeOf word)) with hnone | hpos
    · have := (parameters_image (.inl (isUpload_of_begun hline h hnone.le))).1
      omega
    · rw [pending_command hline (by simpa using hpos), first_command hline hpos]; rfl

theorem polyline_begun (hline : isPolyline (Packet.opcodeOf first) = true)
    (h : Begun (first :: (params ++ [word]))) :
    (pending (first :: params)).feed word = (pending (first :: (params ++ [word])), .none) := by
  rw [pending_polyline hline, pending_polyline hline, List.length_append, List.length_singleton,
    Packet.feed]
  split_ifs with hpos hlast
  · rw [Nat.sub_sub]
  · rw [begun_polyline hline] at h
    rw [h word (by rw [List.drop_append_of_le_length (by omega)]; simp)] at hlast
    cases hlast
  · rw [Nat.sub_eq_zero_of_le (by omega)]

/-- The last parameter is where an image begins. -/
theorem command_begun (hline : isPolyline (Packet.opcodeOf first) = false)
    (hlt : params.length < parameters (Packet.opcodeOf first))
    (h : Begun (first :: (params ++ [word]))) :
    (pending (first :: params)).feed word = (pending (first :: (params ++ [word])), .none) := by
  have hlen : (params ++ [word]).length = params.length + 1 := List.length_append
  rw [pending_command hline hlt, Packet.feed]
  rcases Nat.lt_or_ge (params.length + 1) (parameters (Packet.opcodeOf first)) with hlt' | hge
  · rw [if_pos (by omega), pending_command hline (by omega), hlen, Nat.sub_sub]
  · have himage := isUpload_of_begun hline h (by omega)
    have hn := (parameters_image (.inl himage)).1
    obtain ⟨position, rfl⟩ := List.length_eq_one_iff.1 (show params.length = 1 by omega)
    rw [if_neg (by simp; omega), complete_eq, if_pos himage, pending_image hline (by omega)]
    unfold due
    rw [if_pos himage]
    simp

theorem image_begun (hline : isPolyline (Packet.opcodeOf first) = false)
    (hge : parameters (Packet.opcodeOf first) ≤ params.length)
    (h : Begun (first :: (params ++ [word]))) :
    (pending (first :: params)).feed word = (pending (first :: (params ++ [word])), .none) := by
  have hlen : (params ++ [word]).length = params.length + 1 := List.length_append
  have himage := isUpload_of_begun hline (h.of_append (l := first :: params)) hge
  have hn := (parameters_image (.inl himage)).1
  rw [begun_cons hline, hlen, due_concat (by omega)] at h
  rw [pending_image hline hge, pending_image hline (by omega), Packet.feed, hlen,
    due_concat (by omega), if_pos (by omega), Nat.sub_sub]

/-- A word that does not end its packet. -/
theorem feed_begun (h : Begun (l ++ [word])) :
    (pending l).feed word = (pending (l ++ [word]), .none) := by
  match l with
  | [] => exact first_begun h
  | first :: params =>
    cases hline : isPolyline (Packet.opcodeOf first) with
    | true => exact polyline_begun hline h
    | false =>
      rcases Nat.lt_or_ge params.length (parameters (Packet.opcodeOf first)) with hlt | hge
      · exact command_begun hline hlt h
      · exact image_begun hline hge h

theorem isDownload_of_isUpload {opcode : UInt8} (h : isUpload opcode = true) :
    isDownload opcode = false := by
  unfold isUpload at h
  unfold isDownload
  simp only [Bool.and_eq_true, decide_eq_true_eq] at h
  rw [decide_eq_false (by omega), Bool.false_and]

theorem effectOf_none (hp : params ≠ []) (h : isDownload (Packet.opcodeOf first) = false) :
    effectOf (first :: params) = .none := by
  unfold effectOf
  split
  · simp_all
  · simp_all
  · rfl

theorem first_whole (h : Whole [word]) : Packet.first word = (.idle, effectOf [word]) := by
  cases hline : isPolyline (Packet.opcodeOf word) with
  | true =>
    obtain ⟨more, last, hdrop, -⟩ := (whole_polyline hline).1 h
    simp at hdrop
  | false =>
    rw [whole_cons hline] at h
    unfold due at h
    split_ifs at h with himage
    · simp at h
    · exact first_alone hline h.symm

theorem polyline_whole (hline : isPolyline (Packet.opcodeOf first) = true)
    (h : Whole (first :: (params ++ [word]))) :
    (pending (first :: params)).feed word = (.idle, effectOf (first :: (params ++ [word]))) := by
  obtain ⟨more, last, hdrop, -, hlast⟩ := (whole_polyline hline).1 h
  rcases drop_concat (parameters (Packet.opcodeOf first)) params word with
    ⟨-, hnil⟩ | ⟨hge, hconcat⟩
  · rw [hnil] at hdrop
    simp at hdrop
  · rw [hconcat] at hdrop
    obtain rfl : word = last := List.singleton_inj.1 (List.append_inj' hdrop rfl).2
    have hread : isDownload (Packet.opcodeOf first) = false := by
      refine Bool.eq_false_iff.2 fun hread => ?_
      rw [(parameters_image (.inr hread)).2] at hline
      cases hline
    rw [pending_polyline hline, Packet.feed, if_neg (by omega), if_pos hlast,
      effectOf_none (by simp) hread]

theorem command_whole (hline : isPolyline (Packet.opcodeOf first) = false)
    (hlt : params.length < parameters (Packet.opcodeOf first))
    (h : Whole (first :: (params ++ [word]))) :
    (pending (first :: params)).feed word = (.idle, effectOf (first :: (params ++ [word]))) := by
  rw [whole_cons hline, List.length_append, List.length_singleton] at h
  have himage : isUpload (Packet.opcodeOf first) = false := by
    refine Bool.eq_false_iff.2 fun himage => ?_
    have hn := (parameters_image (.inl himage)).1
    have := three_le_due himage (params ++ [word])
    omega
  unfold due at h
  rw [if_neg (by simp [himage])] at h
  rw [pending_command hline hlt, Packet.feed, if_neg (by omega), complete_eq,
    if_neg (by simp [himage])]
  cases hread : isDownload (Packet.opcodeOf first) with
  | true =>
    have hn := (parameters_image (.inr hread)).1
    obtain ⟨position, rfl⟩ := List.length_eq_one_iff.1 (show params.length = 1 by omega)
    simp [effectOf, hread]
  | false => simp [effectOf_none, hread]

theorem image_whole (hline : isPolyline (Packet.opcodeOf first) = false)
    (hge : parameters (Packet.opcodeOf first) ≤ params.length)
    (h : Whole (first :: (params ++ [word]))) :
    (pending (first :: params)).feed word = (.idle, effectOf (first :: (params ++ [word]))) := by
  have himage := isUpload_of_begun hline (h.begun (l := first :: params)) hge
  have hn := (parameters_image (.inl himage)).1
  rw [whole_cons hline, List.length_append, List.length_singleton, due_concat (by omega)] at h
  rw [pending_image hline hge, Packet.feed, if_neg (by omega),
    effectOf_none (by simp) (isDownload_of_isUpload himage)]

/-- The last word of a packet. -/
theorem feed_whole (h : Whole (l ++ [word])) :
    (pending l).feed word = (.idle, effectOf (l ++ [word])) := by
  match l with
  | [] => exact first_whole h
  | first :: params =>
    cases hline : isPolyline (Packet.opcodeOf first) with
    | true => exact polyline_whole hline h
    | false =>
      rcases Nat.lt_or_ge params.length (parameters (Packet.opcodeOf first)) with hlt | hge
      · exact command_whole hline hlt h
      · exact image_whole hline hge h

end

/-! ### The port -/

/-- The commands of a stream are the first words of its packets. -/
def commands (packets : List (List UInt32)) : List UInt32 := packets.filterMap List.head?

/-- The last command with an opcode. -/
def command? (packets : List (List UInt32)) (opcode : UInt8) : Option UInt32 :=
  ((commands packets).filter (Packet.opcodeOf · == opcode)).getLast?

/-- The size of the image if the packet asks for a copy to the host. -/
def download? : List UInt32 → Option UInt32
  | [first, _, size] => if isDownload (Packet.opcodeOf first) then some size else none
  | _ => none

/-- The size of the last image that is copied to the host. -/
def readSize? (packets : List (List UInt32)) : Option UInt32 :=
  (packets.filterMap download?).getLast?

/-- What the port tells the interrupt controller. -/
def asked (g : Gpu) (packets : List (List UInt32)) : List Signal :=
  if !g.status.interruptRequest && (command? packets 0x1F).isSome then [.raise .gpu] else []

/-- The port after a stream. -/
def settled (g : Gpu) (words : List UInt32) (packets : List (List UInt32)) (rest : List UInt32) :
    Gpu :=
  { g with
    queue := words.foldl CommandQueue.push g.queue
    packet := pending rest
    vramReadWords := ((readSize? packets).map dataWords).getD g.vramReadWords
    status := { g.status with
      interruptRequest := g.status.interruptRequest || (command? packets 0x1F).isSome
      drawMode := ((command? packets 0xE1).map fun word => (word &&& 0x7FF).toUInt16).getD
        g.status.drawMode
      textureDisable := ((command? packets 0xE1).map fun word => word &&& 0x800 != 0).getD
        g.status.textureDisable
      setMask := ((command? packets 0xE6).map fun word => word &&& 1 != 0).getD g.status.setMask
      checkMask := ((command? packets 0xE6).map fun word => word &&& 2 != 0).getD
        g.status.checkMask }
    environment := { g.environment with
      textureWindow := ((command? packets 0xE2).map (· &&& 0x000FFFFF)).getD
        g.environment.textureWindow
      areaTopLeft := ((command? packets 0xE3).map (· &&& 0x0007FFFF)).getD
        g.environment.areaTopLeft
      areaBottomRight := ((command? packets 0xE4).map (· &&& 0x0007FFFF)).getD
        g.environment.areaBottomRight
      offset := ((command? packets 0xE5).map (· &&& 0x003FFFFF)).getD g.environment.offset } }

/-- Writes the words one after the other, and what the port tells in doing so. -/
def writeGp0s (g : Gpu) : List UInt32 → List Signal × Gpu
  | [] => ([], g)
  | word :: words =>
    let (signals, g) := g.writeGp0 word
    let (more, g) := g.writeGp0s words
    (signals ++ more, g)

section
variable {g : Gpu} {words rest : List UInt32} {packets : List (List UInt32)}
variable {first word : UInt32} {params : List UInt32}

theorem writeGp0s_concat (g : Gpu) (words : List UInt32) (word : UInt32) :
    g.writeGp0s (words ++ [word]) = ((g.writeGp0s words).1 ++
      ((g.writeGp0s words).2.writeGp0 word).1, ((g.writeGp0s words).2.writeGp0 word).2) := by
  induction words generalizing g with
  | nil => simp [writeGp0s]
  | cons w words ih => simp [writeGp0s, ih]

theorem command?_concat (packets : List (List UInt32)) (first : UInt32) (params : List UInt32)
    (opcode : UInt8) : command? (packets ++ [first :: params]) opcode =
      if Packet.opcodeOf first = opcode then some first else command? packets opcode := by
  unfold command? commands
  rw [List.filterMap_append, List.filter_append]
  split_ifs with h <;> simp [h]

theorem readSize?_concat (packets : List (List UInt32)) (p : List UInt32) :
    readSize? (packets ++ [p]) = (download? p).or (readSize? packets) := by
  unfold readSize?
  rw [List.filterMap_append]
  cases h : download? p <;> simp [h]

/-- Does what a word completes. -/
def perform (g : Gpu) : Effect → List Signal × Gpu
  | .none => ([], g)
  | .execute opcode word => g.execute opcode word
  | .imageRead words => ([], { g with vramReadWords := words })

theorem writeGp0_eq {packet : Packet} {effect : Effect}
    (h : g.packet.feed word = (packet, effect)) :
    g.writeGp0 word = perform { g with queue := g.queue.push word, packet } effect := by
  unfold writeGp0 frame
  dsimp only
  rw [h]
  cases effect <;> rfl

/-- A command of one word. -/
theorem execute_settled (g : Gpu) (words : List UInt32) (packets : List (List UInt32))
    (first : UInt32) : ∃ signals,
      (g.settled words packets []).execute (Packet.opcodeOf first) first =
        (signals, g.settled words (packets ++ [[first]]) []) ∧
      g.asked packets ++ signals = g.asked (packets ++ [[first]]) := by
  have hsize : readSize? (packets ++ [[first]]) = readSize? packets :=
    readSize?_concat packets [first]
  unfold settled asked
  simp only [command?_concat, hsize]
  generalize hop : Packet.opcodeOf first = op
  unfold execute
  split
  · cases g.status.interruptRequest with
    | true => exact ⟨[], by simp, by simp⟩
    | false =>
      cases hbefore : (command? packets 0x1F).isSome with
      | true => exact ⟨[], by simp, by simp⟩
      | false => exact ⟨[.raise .gpu], by simp, by simp⟩
  all_goals exact ⟨[], by simp_all, by simp_all⟩

/-- The commands that say something to the port. -/
def settings : List UInt8 := [0x1F, 0xE1, 0xE2, 0xE3, 0xE4, 0xE5, 0xE6]

theorem opcodeOf_ne_of_long (h : Whole (first :: params)) (hp : params ≠ []) {opcode : UInt8}
    (ho : opcode ∈ settings) : Packet.opcodeOf first ≠ opcode := by
  rintro rfl
  have hshort : ∀ op ∈ settings, isPolyline op = false ∧ isUpload op = false ∧
      parameters op = 0 := by decide +kernel
  obtain ⟨hline, himage, hnone⟩ := hshort _ ho
  rw [whole_cons hline, due, if_neg (by simp [himage]), hnone] at h
  exact hp (List.length_eq_zero_iff.1 h)

/-- A command of several words. -/
theorem perform_long (g : Gpu) (words : List UInt32) (packets : List (List UInt32))
    (h : Whole (first :: params)) (hp : params ≠ []) :
    (g.settled words packets []).perform (effectOf (first :: params)) =
        ([], g.settled words (packets ++ [first :: params]) []) ∧
      g.asked (packets ++ [first :: params]) = g.asked packets := by
  have hcommand : ∀ opcode ∈ settings,
      command? (packets ++ [first :: params]) opcode = command? packets opcode := by
    intro opcode ho
    rw [command?_concat, if_neg (opcodeOf_ne_of_long h hp ho)]
  simp only [settings, List.forall_mem_cons] at hcommand
  obtain ⟨h1F, hE1, hE2, hE3, hE4, hE5, hE6, -⟩ := hcommand
  refine ⟨?_, by unfold asked; rw [h1F]⟩
  unfold settled
  simp only [h1F, hE1, hE2, hE3, hE4, hE5, hE6, readSize?_concat]
  match params with
  | [] => exact absurd rfl hp
  | [_] => rfl
  | [_, size] =>
    cases hread : isDownload (Packet.opcodeOf first) <;> simp [effectOf, download?, perform, hread]
  | _ :: _ :: _ :: _ => rfl

theorem settled_nil (h : g.packet = .idle) : g.settled [] [] [] = g := by
  cases g
  cases h
  simp [settled, command?, commands, readSize?, pending]

theorem settled_word (g : Gpu) (words : List UInt32) (packets : List (List UInt32))
    (rest rest' : List UInt32) (word : UInt32) :
    { g.settled words packets rest with
      queue := (g.settled words packets rest).queue.push word, packet := pending rest' } =
      g.settled (words ++ [word]) packets rest' := by
  unfold settled
  simp

/-- A word that does not end its packet says nothing to the port. -/
theorem writeGp0_begun (g : Gpu) (words : List UInt32) (packets : List (List UInt32))
    (h : Begun (rest ++ [word])) : (g.settled words packets rest).writeGp0 word =
      ([], g.settled (words ++ [word]) packets (rest ++ [word])) := by
  rw [writeGp0_eq (feed_begun h), settled_word]
  rfl

/-- The last word of a packet does what the packet does. -/
theorem writeGp0_whole (g : Gpu) (words : List UInt32) (packets : List (List UInt32))
    (h : Whole (rest ++ [word])) : ∃ signals, (g.settled words packets rest).writeGp0 word =
        (signals, g.settled (words ++ [word]) (packets ++ [rest ++ [word]]) []) ∧
      g.asked packets ++ signals = g.asked (packets ++ [rest ++ [word]]) := by
  rw [writeGp0_eq (feed_whole h), show Packet.idle = pending [] from rfl, settled_word]
  match hp : rest ++ [word] with
  | [] => simp at hp
  | [first] => exact g.execute_settled (words ++ [word]) packets first
  | first :: second :: params =>
    rw [hp] at h
    obtain ⟨hperform, hasked⟩ := g.perform_long (words ++ [word]) packets h (by simp)
    exact ⟨[], hperform, by rw [hasked, List.append_nil]⟩

theorem writeGp0s_settled (h : g.packet = .idle) (words : List UInt32) : ∃ packets rest,
    Cut words packets rest ∧
      g.writeGp0s words = (g.asked packets, g.settled words packets rest) := by
  induction words using List.reverseRecOn with
  | nil =>
    refine ⟨[], [], .nil, ?_⟩
    rw [settled_nil h]
    simp [asked, command?, commands, writeGp0s]
  | append_singleton words word ih =>
    obtain ⟨packets, rest, hcut, heq⟩ := ih
    rw [writeGp0s_concat, heq]
    rcases hcut.begun.step word with hbegun | hwhole
    · refine ⟨packets, rest ++ [word], hcut.goOn hbegun, ?_⟩
      rw [g.writeGp0_begun words packets hbegun, List.append_nil]
    · obtain ⟨signals, hwrite, hasked⟩ := g.writeGp0_whole words packets hwhole
      refine ⟨packets ++ [rest ++ [word]], [], hcut.finish hwhole, ?_⟩
      rw [hwrite, hasked]

/-- Every stream of words is cut into packets in one way, and what it does to an idle port is what
these packets say. -/
theorem framing (h : g.packet = .idle) (words : List UInt32) : ∃ packets rest,
    (∀ packets' rest', Cut words packets' rest' ↔ packets' = packets ∧ rest' = rest) ∧
      g.writeGp0s words = (g.asked packets, g.settled words packets rest) := by
  obtain ⟨packets, rest, hcut, heq⟩ := writeGp0s_settled h words
  refine ⟨packets, rest, fun packets' rest' => ⟨hcut.unique, ?_⟩, heq⟩
  rintro ⟨rfl, rfl⟩
  exact hcut

end

/-- Commands in the words of an image, in the vertices of a polyline and in a packet that has only
begun are no commands. -/
theorem framing_hidden_commands :
    let packets := [[0xA0000000, 0, 0x00020002, 0xE1000555, 0x1F000000],
      [0x48FFFFFF, 0x50005000, 0xE6000003, 0x1F000000, 0x55555555],
      [0xE1000234], [0xC0000000, 0, 0x00010000]]
    let rest := [0x2C808080, 0xE2012345]
    let words := packets.flatten ++ rest
    let g := initial 16 .ntsc
    g.packet = .idle ∧ Cut words packets rest ∧
      g.writeGp0s words = ([], g.settled words packets rest) ∧
      (g.settled words packets rest).status = { g.status with drawMode := 0x234 } ∧
      (g.settled words packets rest).environment = g.environment ∧
      (g.settled words packets rest).vramReadWords = 512 ∧
      (g.settled words packets rest).packet = .command 0x2C 7 := by
  intro packets rest words g
  have hcut : Cut words packets rest := by
    refine ⟨rfl, ?_, begun_iff.1 ((begun_cons (by decide +kernel)).2 (by decide +kernel))⟩
    simp only [packets, List.forall_mem_cons]
    refine ⟨.upload _ _ _ _ (by decide +kernel) (by decide +kernel),
      .polyline _ [0x50005000, 0xE6000003] [0x1F000000] _ (by decide +kernel) (by decide +kernel)
        (List.forall_mem_singleton.2 (by decide +kernel)) (by decide +kernel),
      .command _ _ (by decide +kernel) (by decide +kernel) (by decide +kernel),
      .command _ _ (by decide +kernel) (by decide +kernel) (by decide +kernel), nofun⟩
  obtain ⟨packets', rest', hiff, heq⟩ := framing (g := g) rfl words
  obtain ⟨rfl, rfl⟩ := (hiff packets rest).1 hcut
  exact ⟨rfl, hcut, heq, by decide +kernel, by decide +kernel, by decide +kernel, by decide +kernel⟩

end Gpu

end Psx
