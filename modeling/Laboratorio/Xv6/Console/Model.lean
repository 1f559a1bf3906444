import Laboratorio.Lib.System
import Laboratorio.Lib.Ring

/-! # The input of `console.c`

Any number of agents run `consoleintr` and `consoleread`: interrupt handlers that are given the
characters one by one, and readers.  Every test, assignment to `input` and operation on
`cons.lock` is one step.  `sleep` gives the lock up and may end at any time, so that `wakeup`
has no step; whether the reader has been killed is part of the step that asks.  What is
printed (`consputc`, `procdump`) and the lock of the inode are left out.

`Session` says what the line discipline is for.  It is history: the characters that have been
typed edit the current line (`Session.type`), a line is committed as a whole, and readers
take the committed characters in their order.  The model applies `type` to each character when
`consoleintr` has dealt with it.
-/

namespace Laboratorio.Xv6.Console

open Laboratorio.Lib

def inputBuf : Nat := 128

instance : NeZero inputBuf := ⟨by decide⟩

/-- `C(x)` -/
def ctrl (x : UInt8) : UInt8 := x - 64

/-- `C('P')` -/
def listing : UInt8 := ctrl 80

/-- `C('U')` -/
def killLine : UInt8 := ctrl 85

/-- `C('H')` and `'\x7f'` -/
def isBackspace (c : UInt8) : Bool := c = ctrl 72 || c = 0x7f

/-- `C('D')` -/
def eof : UInt8 := ctrl 68

def newline : UInt8 := 10

/-- `c = (c == '\r') ? '\n' : c` -/
def translate (c : UInt8) : UInt8 := if c = 13 then newline else c

/-! ## What is typed and what is read -/

structure Session where
  committed : List UInt8
  line : List UInt8
  /-- How many of the committed characters have left the buffer. -/
  consumed : Nat
  delivered : List UInt8

namespace Session

/-- The committed characters that nobody has read. -/
def queue (session : Session) : List UInt8 :=
  session.committed.drop session.consumed

def held (session : Session) : Nat :=
  session.queue.length + session.line.length

/-- A character of the text: it ends the line if it is a newline or `^D`, or fills the buffer. -/
def append (session : Session) (c : UInt8) : Session :=
  if c = newline ∨ c = eof ∨ session.held + 1 = inputBuf then
    { session with committed := session.committed ++ (session.line ++ [c]), line := [] }
  else { session with line := session.line ++ [c] }

def type (session : Session) (c : UInt8) : Session :=
  if c = listing then session
  else if c = killLine then { session with line := [] }
  else if isBackspace c then { session with line := session.line.dropLast }
  else if c ≠ 0 ∧ session.held < inputBuf then session.append (translate c)
  else session

/-- A reader stores the next character. -/
def deliver (session : Session) (c : UInt8) : Session :=
  { session with
    consumed := session.consumed + 1
    delivered := session.delivered ++ [c] }

/-- A reader takes a `^D`. -/
def discard (session : Session) : Session :=
  { session with consumed := session.consumed + 1 }

end Session

/-! ## `consoleintr` and `consoleread` -/

structure Input where
  buf : Fin inputBuf → UInt8
  r : UInt32
  w : UInt32
  e : UInt32

/-- Positions inside `consoleintr`; `commit` is the test after a character has been stored. -/
inductive IntrAt
  | acquire
  | getc
  | kill
  | commit (typed : UInt8)
  | release
  deriving DecidableEq

/-- Positions inside `consoleread`; `got c` is after `c = input.buf[input.r++ % INPUT_BUF]`. -/
inductive ReadAt
  | acquire
  | loop
  | whileEmpty
  | sleep
  | asleep
  | take
  | got (c : UInt8)
  | release (result : Int)
  | returns (result : Int)
  deriving DecidableEq

/-- `dst` has what the reader has stored. -/
inductive Frame
  | idle
  | intr (pos : IntrAt)
  | read (target n : Int) (dst : List UInt8) (pos : ReadAt)
  deriving DecidableEq

structure Kernel (Agent : Type) where
  input : Input
  lock : Option Agent
  frames : Agent → Frame
  session : Session

inductive Label (Agent : Type)
  | interrupt (a : Agent)
  | getc (a : Agent) (c : Option UInt8)
  | call (a : Agent) (n : Int)
  | run (a : Agent) (killed : Bool)

variable {Agent : Type} [DecidableEq Agent]

namespace Kernel

def goto (k : Kernel Agent) (a : Agent) (frame : Frame) : Kernel Agent :=
  { k with frames := Function.update k.frames a frame }

/-- `acquire(&cons.lock)` -/
def acquire (k : Kernel Agent) (a : Agent) (frame : Frame) : Option (Kernel Agent) :=
  if k.lock = none then some ({ k with lock := some a }.goto a frame) else none

def release (k : Kernel Agent) (a : Agent) (frame : Frame) : Kernel Agent :=
  { k with lock := none }.goto a frame

def nextChar (k : Kernel Agent) (a : Agent) (typed : UInt8) : Kernel Agent :=
  { k with session := k.session.type typed }.goto a (.intr .getc)

/-- The switch of `consoleintr`. -/
def typed (k : Kernel Agent) (a : Agent) (c : UInt8) : Kernel Agent :=
  let input := k.input
  if c = listing then k.nextChar a c
  else if c = killLine then k.goto a (.intr .kill)
  else if isBackspace c then
    if input.e ≠ input.w then { k with input.e := input.e - 1 }.nextChar a c else k.nextChar a c
  else if c ≠ 0 ∧ input.e - input.r < UInt32.ofNat inputBuf then
    { k with
      input.buf := Function.update input.buf (Ring.slot inputBuf input.e) (translate c)
      input.e := input.e + 1 }.goto a (.intr (.commit c))
  else k.nextChar a c

def consoleintr (k : Kernel Agent) (a : Agent) : IntrAt → Option (Kernel Agent)
  | .acquire => k.acquire a (.intr .getc)
  | .getc => none
  | .kill =>
    let input := k.input
    if input.e ≠ input.w ∧ input.buf (Ring.slot inputBuf (input.e - 1)) ≠ newline then
      some ({ k with input.e := input.e - 1 }.goto a (.intr .kill))
    else some (k.nextChar a killLine)
  | .commit c =>
    let input := k.input
    if translate c = newline ∨ translate c = eof ∨ input.e = input.r + UInt32.ofNat inputBuf then
      some ({ k with input.w := input.e }.nextChar a c)
    else some (k.nextChar a c)
  | .release => some (k.release a .idle)

def consoleread (k : Kernel Agent) (a : Agent) (killed : Bool) (target n : Int)
    (dst : List UInt8) : ReadAt → Option (Kernel Agent)
  | .acquire => k.acquire a (.read target n dst .loop)
  | .loop =>
    if 0 < n then some (k.goto a (.read target n dst .whileEmpty))
    else some (k.goto a (.read target n dst (.release (target - n))))
  | .whileEmpty =>
    if k.input.r = k.input.w then
      if killed then some (k.goto a (.read target n dst (.release (-1))))
      else some (k.goto a (.read target n dst .sleep))
    else some (k.goto a (.read target n dst .take))
  | .sleep => some (k.release a (.read target n dst .asleep))
  | .asleep => k.acquire a (.read target n dst .whileEmpty)
  | .take =>
    let c := k.input.buf (Ring.slot inputBuf k.input.r)
    some ({ k with input.r := k.input.r + 1 }.goto a (.read target n dst (.got c)))
  | .got c =>
    if c = eof then
      let after := Frame.read target n dst (.release (target - n))
      if n < target then some ({ k with input.r := k.input.r - 1 }.goto a after)
      else some ({ k with session := k.session.discard }.goto a after)
    else
      let pos := if c = newline then .release (target - (n - 1)) else .loop
      some ({ k with session := k.session.deliver c }.goto a
        (.read target (n - 1) (dst ++ [c]) pos))
  | .release result => some (k.release a (.read target n dst (.returns result)))
  | .returns _ => some (k.goto a .idle)

end Kernel

def step (k : Kernel Agent) : Label Agent → Option (Kernel Agent)
  | .interrupt a => if k.frames a = .idle then some (k.goto a (.intr .acquire)) else none
  | .getc a c =>
    if k.frames a = .intr .getc then
      match c with
      | none => some (k.goto a (.intr .release))
      | some c => some (k.typed a c)
    else none
  | .call a n => if k.frames a = .idle then some (k.goto a (.read n n [] .acquire)) else none
  | .run a killed =>
    match k.frames a with
    | .idle => none
    | .intr pos => k.consoleintr a pos
    | .read target n dst pos => k.consoleread a killed target n dst pos

/-- The three counters may start anywhere. -/
structure Initial (k : Kernel Agent) : Prop where
  read : k.input.r = k.input.w
  edit : k.input.e = k.input.w
  lock : k.lock = none
  idle : ∀ a, k.frames a = .idle
  session : k.session = ⟨[], [], 0, []⟩

def system : System (Kernel Agent) (Label Agent) where
  init := Initial
  step := step

end Laboratorio.Xv6.Console
