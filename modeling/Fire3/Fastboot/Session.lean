import Fire3.Fastboot.Flash

/-!
The fastboot gadget: `cb_download`, `rx_handler_dl_image` and `cb_flash` of
`drivers/usb/gadget/f_fastboot.c`.

An image that is larger than the buffer is split: each time enough of it is there, it is
written to the partition that the environment names, and its entry of the map starts
behind it from then on. What is left is written by the flash command.
-/

namespace Fire3.Fastboot
open CString ByteMemory

/-- The configuration, the packet size of the endpoint and the variable `partition`. -/
structure Board where
  bufSize : Nat
  divSize : Nat
  maxpacket : Nat
  partition : Option CStr

def epBufferSize : Nat := 4096

/-- The static variables, with the buffer for the image and the list of the partition map. While
`receiving`, `rx_handler_dl_image` gets the next `reqLength` bytes at most. -/
structure Gadget where
  downloadSize : Nat
  downloadBytes : Nat
  divDownloadBytes : Nat
  isDivDl : Bool
  divDlPart : CStr
  receiving : Bool
  reqLength : Nat
  buf : Mem
  flashSessionId : Nat
  parts : List FlashPart

def hex8 (n : Nat) : CStr := (List.range 8).reverse.map fun k => hexDigit (n / 16 ^ k % 16)

def Gadget.rxBytesExpected (g : Gadget) (maxpacket : Nat) : Nat :=
  let rxRemain := ((g.downloadSize : Int) - g.downloadBytes).bmod (2 ^ 32)
  if rxRemain < 0 then 0
  else if rxRemain > epBufferSize then epBufferSize
  else if rxRemain < maxpacket then maxpacket
  else rxRemain.toNat - rxRemain.toNat % maxpacket

def Gadget.request (g : Gadget) (board : Board) : Gadget :=
  { g with reqLength := max (g.rxBytesExpected board.maxpacket) board.maxpacket }

/-- `cb_download` for a size in hexadecimal, and its response. -/
def Gadget.cbDownload (g : Gadget) (board : Board) (cmd : CStr) : Gadget × CStr :=
  let g := { g with
    downloadSize := simpleStrtoul cmd 16 % 2 ^ 32
    downloadBytes := 0
    divDownloadBytes := 0
    isDivDl := false }
  let data := ascii "DATA" ++ hex8 g.downloadSize
  if g.downloadSize = 0 then (g, ascii "FAILdata invalid size")
  else if g.downloadSize > board.bufSize then
    match board.partition with
    | some part =>
        (({ g with isDivDl := true, divDlPart := part, receiving := true } : Gadget).request board, data)
    | none => ({ g with downloadSize := 0 }, ascii "FAILdata too large")
  else (({ g with receiving := true } : Gadget).request board, data)

def Gadget.flash (g : Gadget) (a : Answer) (cmd : CStr) (bytes : Nat) (response : CStr) :
    Gadget × List PartWrite × CStr :=
  let (ws, response) := fbFlashWriteBasedPartmap g.isDivDl a cmd bytes g.parts response
  ({ g with parts := ws.map PartWrite.part }, ws, response)

def Gadget.receive (g : Gadget) (data : List UInt8) : Gadget :=
  let transfer := data.take (g.downloadSize - g.downloadBytes)
  if g.isDivDl then
    { g with
      buf := store g.buf g.divDownloadBytes transfer
      downloadBytes := g.downloadBytes + transfer.length
      divDownloadBytes := g.divDownloadBytes + transfer.length }
  else
    { g with
      buf := store g.buf g.downloadBytes transfer
      downloadBytes := g.downloadBytes + transfer.length }

/-- `rx_handler_dl_image` for a request that was completed with `data`; the response is sent when
the image is complete. -/
def Gadget.rxHandlerDlImage (g : Gadget) (board : Board) (status : Int) (data : List UInt8)
    (a : Answer) : Gadget × List PartWrite × Option CStr :=
  if status ≠ 0 ∨ g.receiving = false then (g, [], none)
  else
    let g := g.receive data
    if g.downloadBytes ≥ g.downloadSize then
      ({ g with downloadSize := 0, receiving := false, reqLength := epBufferSize }, [],
        some (ascii "OKAY"))
    else
      let g := g.request board
      if g.isDivDl ∧ g.divDownloadBytes ≥ board.divSize then
        let (g, ws, _) := g.flash a g.divDlPart g.divDownloadBytes []
        ({ g with divDownloadBytes := 0 }, ws, none)
      else (g, [], none)

/-- What `cb_flash` meets: the bytes in its response buffer, the list that the variable `partmap`
gives (none without the variable; an error leaves it empty), the cards, `last_offset`, and for the
reserved names the list that the map in the buffer gives, whether the map is parsed and saved, and
what `fb_setenv` and `fb_command` return. -/
structure FlashCall where
  stack : CStr
  partmap : Option (List FlashPart)
  answer : Answer
  gpt : GptCard
  lastOffset : Nat
  newMap : List FlashPart
  parsed : Bool
  saved : Bool
  fbSetenv : Int
  fbCommand : Int

def errFlash (_response : CStr) : CStr := ascii "FAIL partition does not exist"

def FlashCall.reserved (c : FlashCall) (cmd : CStr) : Option CStr :=
  if cmd = ascii "partmap" then
    if !c.parsed then some (errFlash (ascii "FAIL partition map parse"))
    else if c.saved then some (fastbootOkay c.stack [])
    -- a map that is not saved is treated as a partition of that name
    else none
  else if cmd = ascii "setenv" then
    some (if c.fbSetenv < 0 then errFlash (ascii "FAIL environment parse")
      else fastbootOkay c.stack [])
  else if cmd = ascii "cmd" then
    some (if c.fbCommand < 0 then errFlash (ascii "FAIL cmd parse") else fastbootOkay c.stack [])
  else if cmd = ascii "mem" then some (fastbootOkay c.stack [])
  else none

def Gadget.remade (g : Gadget) (cmd : CStr) (c : FlashCall) : Gadget :=
  if cmd = ascii "partmap" then { g with parts := c.newMap } else g

def Gadget.flashGpt (g : Gadget) (cmd : CStr) (c : FlashCall) : CStr × Option MmcWrite :=
  fbMmcFlashWrite c.gpt cmd g.flashSessionId c.lastOffset g.buf g.downloadBytes
    (ascii "FAILno flash device defined")

def Gadget.flashPartition (g : Gadget) (cmd : CStr) (c : FlashCall) :
    Gadget × List PartWrite × CStr :=
  if g.isDivDl then
    let (g, ws, response) := g.flash c.answer g.divDlPart g.divDownloadBytes c.stack
    (g, ws, fastbootOkay response [])
  else
    match c.partmap with
    | some parts => ({ g with parts := parts } : Gadget).flash c.answer cmd g.downloadBytes c.stack
    | none =>
        -- the label comes next
        (g, [], errFlash (g.flashGpt cmd c).1)

def Gadget.cbFlash (g : Gadget) (cmd : Option CStr) (c : FlashCall) : Gadget × List PartWrite × CStr :=
  match cmd with
  | none => (g, [], ascii "FAILmissing partition name")
  | some cmd =>
      let (g, ws, response) :=
        match c.reserved cmd with
        | some response => (g, [], response)
        | none => (g.remade cmd c).flashPartition cmd c
      ({ g with flashSessionId := g.flashSessionId + 1, parts := [] }, ws, response)

theorem reserved_eq_none {c : FlashCall} {cmd : CStr} (h : cmd ∉ fReservePart) :
    c.reserved cmd = none := by
  simp only [fReservePart, List.mem_cons, List.not_mem_nil, or_false, not_or] at h
  simp [FlashCall.reserved, h]

theorem remade_eq_self {g : Gadget} {c : FlashCall} {cmd : CStr} (h : cmd ∉ fReservePart) :
    g.remade cmd c = g := by
  simp only [fReservePart, List.mem_cons, not_or] at h
  simp [Gadget.remade, h.1]

/-!
A host at work with the fastboot gadget: commands and data in any order, and the answers of
the cards.

Beside the gadget a session keeps the entries as the map gave them, since a split download
moves their starts, and notes what is written for which entry and image, and for each flash
command of a partition the reply and whether the image was really written: whether the card was
asked to write all of it in its place, and did so.
-/

inductive Event
  | getvar (parts : List FlashPart)
  | download (cmd : CStr)
  | data (status : Int) (data : List UInt8) (a : Answer)
  | flash (cmd : Option CStr) (c : FlashCall)

/-- A call of `fb_flash_write_based_partmap`: the entries as the map has them and as they are, and
the size of the whole image. -/
structure Call where
  made : List FlashPart
  parts : List FlashPart
  isDivDl : Bool
  answer : Answer
  cmd : CStr
  bytes : Nat
  image : Nat

structure Write where
  entry : FlashPart
  split : Bool
  image : Nat
  request : Request
  deriving DecidableEq, Repr

def logWrites (made : List FlashPart) (split : Bool) (image : Nat) (ws : List PartWrite) : List Write :=
  (made.zip ws).filterMap fun (m, w) => w.request.map fun r => ⟨m, split, image, r⟩

def Call.writes (c : Call) : List Write :=
  logWrites c.made c.isDivDl c.image
    (fbFlashWriteBasedPartmap c.isDivDl c.answer c.cmd c.bytes c.parts []).1

/-- The image fits, and `w` asked the card for all blocks of the call from the start of the entry
on, or for the partition of an ext4 image, and the card did so. -/
def Call.wroteEntry (c : Call) (m p : FlashPart) (w : PartWrite) : Bool :=
  (m.length = 0 || c.image ≤ m.length) && c.answer.done &&
    if !c.isDivDl && p.fsType = .ext4 then w.image = some ⟨p.devNo, p.partNum, c.bytes⟩
    else w.request = some ⟨p.devNo, p.start / blkSize, blkCount c.bytes⟩

def Call.wrote (c : Call) (ws : List PartWrite) : Bool :=
  (c.made.zip (c.parts.zip ws)).any fun (m, p, w) => p.partition = c.cmd && c.wroteEntry m p w

/-- `delivered` tells whether the parts of the image that have left the buffer were written. -/
structure Session where
  gadget : Gadget
  made : List FlashPart
  delivered : Bool
  writes : List Write
  replies : List (CStr × Bool)

namespace Session
variable (board : Board) (s : Session)

def chunkCall (status : Int) (data : List UInt8) (a : Answer) : Option Call :=
  let g := s.gadget.receive data
  if status = 0 ∧ s.gadget.receiving = true ∧ g.downloadBytes < g.downloadSize ∧ g.isDivDl = true ∧
      board.divSize ≤ g.divDownloadBytes then
    some ⟨s.made, g.parts, true, a, g.divDlPart, g.divDownloadBytes, g.downloadSize⟩
  else none

def remade (cmd : CStr) (c : FlashCall) : List FlashPart :=
  if cmd = ascii "partmap" then c.newMap else s.made

def flashCall (cmd : Option CStr) (c : FlashCall) : Option Call := do
  let cmd ← cmd
  if (c.reserved cmd).isSome then none
  else if s.gadget.isDivDl then
    some ⟨s.remade cmd c, (s.gadget.remade cmd c).parts, true, c.answer, s.gadget.divDlPart,
      s.gadget.divDownloadBytes, s.gadget.downloadBytes⟩
  else
    let parts ← c.partmap
    some ⟨parts, parts, false, c.answer, cmd, s.gadget.downloadBytes, s.gadget.downloadBytes⟩

def call : Event → Option Call
  | .getvar _ => none
  | .download _ => none
  | .data status data a => s.chunkCall board status data a
  | .flash cmd c => s.flashCall cmd c

/-- The partition of the flash command is there, and with the writes `ws` of the command all of
the image was written to it. -/
def flashed (cmd : CStr) (c : FlashCall) (ws : List PartWrite) : Bool :=
  match s.flashCall (some cmd) c with
  | some call => (!call.isDivDl || (cmd = call.cmd && s.delivered)) && call.wrote ws
  | none =>
      (s.gadget.flashGpt cmd c).2.any (·.stored c.gpt cmd s.gadget.buf s.gadget.downloadBytes)

/-- The reply to a flash command is noted unless the name is reserved. -/
def answered (cmd : Option CStr) (c : FlashCall) (r : List PartWrite × CStr) : List (CStr × Bool) :=
  match cmd with
  | none => [(r.2, false)]
  | some cmd => if cmd ∈ fReservePart then [] else [(r.2, s.flashed cmd c r.1)]

def step (s : Session) : Event → Session
  | .getvar parts => { s with gadget := { s.gadget with parts := parts }, made := parts }
  | .download cmd => { s with gadget := (s.gadget.cbDownload board cmd).1, delivered := true }
  | .data status data a =>
      let r := s.gadget.rxHandlerDlImage board status data a
      { s with
        gadget := r.1
        delivered := s.delivered && (s.chunkCall board status data a).all (·.wrote r.2.1)
        writes := s.writes ++ logWrites s.made s.gadget.isDivDl s.gadget.downloadSize r.2.1 }
  | .flash cmd c =>
      let r := s.gadget.cbFlash cmd c
      let made := if s.gadget.isDivDl then cmd.elim s.made (s.remade · c) else c.partmap.getD []
      { s with
        gadget := r.1
        made := if cmd.isSome then [] else s.made
        writes := s.writes ++ logWrites made s.gadget.isDivDl s.gadget.downloadBytes r.2.1
        replies := s.replies ++ s.answered cmd c r.2 }

end Session

def Gadget.idle (buf : Mem) : Gadget := ⟨0, 0, 0, false, [], false, 0, buf, 0, []⟩

def Session.start (buf : Mem) : Session := ⟨Gadget.idle buf, [], true, [], []⟩

def s5p6818 : Board := ⟨0x37F00000, 0x10000000, 512, none⟩

def oneBlock : FlashPart := ⟨ascii "splash", 0, 0x200, 0x200, .raw, none⟩

def workingCard : Answer := ⟨true, 0, none, true⟩

def flashOneBlock (a : Answer) : FlashCall :=
  ⟨[], some [oneBlock], a, ⟨false, fun _ => none, fun _ => none, false, false, fun _ => false⟩, 0, [],
    false, false, 0, 0⟩

def flashRun (size : Nat) (a : Answer) : List Event :=
  [.download (hex8 size), .data 0 (List.replicate size 0) a,
    .flash (some (ascii "splash")) (flashOneBlock a)]

end Fire3.Fastboot
