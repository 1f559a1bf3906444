import Laboratorio.Lib.Outcome

/-! # The command parser of `sh.c`

The parser walks a cursor over a line through two functions only, `peek` and `gettoken`.
The parsing functions are written over a `Stream` that has these two operations, so that
they can be read both over the characters of the line, as in the source, and over its
tokens.

A word is kept in two ways.  The shell of xv6 stores where it starts and where it ends in
the line and writes the terminators in a second pass, `nulterminate`; the parser of the
laboratory (`Shell/Lab02`) copies it at once.  Both use the functions of this module up to
the marked differences, which are the fields of `Dialect`.

Every loop iteration and every call uses one unit of `fuel`.  `malloc` does not fail.
-/

namespace Laboratorio.Shell

open Laboratorio.Lib

/-! ## Commands -/

inductive OpenFlag where
  | rdonly
  | wronly
  | create
  | trunc
deriving DecidableEq, Repr

/-- The fields of a `redircmd` other than its command. -/
structure Redirection (W : Type) where
  file : W
  mode : List OpenFlag
  fd : Nat
deriving DecidableEq, Repr

inductive Cmd (W : Type) where
  | exec (argv : List W)
  | redir (cmd : Cmd W) (redirection : Redirection W)
  | pipe (left right : Cmd W)
  | list (left right : Cmd W)
  | back (cmd : Cmd W)
deriving DecidableEq, Repr

def maxArgs : Nat := 10

def nul : Char := Char.ofNat 0

/-! ## The cursor -/

/-- What `peek` reports: whether the next character is one of those asked for, and where
the cursor stands now. -/
structure Look (S : Type) where
  found : Bool
  next : S

/-- What `gettoken` reports: the kind of the token, its text, and where the cursor stands
now. -/
structure Read (S W : Type) where
  tok : Char
  text : W
  next : S

structure Stream (S W : Type) where
  peek : S → List Char → Look S
  gettoken : S → Read S W

/-! ## The parser -/

inductive Fault where
  | noFuel
  | died (message : String)
deriving DecidableEq, Repr

/-- Where the two parsers differ in the functions they share. -/
structure Dialect where
  -- the characters at which `parseexec` stops reading arguments
  stops : List Char
  -- the `switch` of `parseredirs`
  redirection : Char → Option (List OpenFlag × Nat)
  missingFile : String
  badToken : String
  tooManyArgs : String

section

variable {S W : Type} (dialect : Dialect) (stream : Stream S W)

/-- The redirections in the order they are read, each to be wrapped around the command. -/
def parseredirs : Nat → S → Except Fault (List (Redirection W) × S)
  | 0, _ => .error .noFuel
  | fuel + 1, s =>
    let look := stream.peek s ['<', '>']
    if look.found then
      let tok := stream.gettoken look.next
      let file := stream.gettoken tok.next
      if file.tok ≠ 'a' then
        .error (.died dialect.missingFile)
      else do
        let rest ← parseredirs fuel file.next
        match dialect.redirection tok.tok with
        | some (mode, fd) => pure (⟨file.text, mode, fd⟩ :: rest.1, rest.2)
        | none => pure (rest.1, rest.2)
    else
      pure ([], look.next)

/-- The loop of `parseexec`.  The source adds each argument to a command that already has
its redirections around it; here the arguments and the redirections are returned apart. -/
def parseargs : Nat → Nat → S → Except Fault ((List W × List (Redirection W)) × S)
  | 0, _, _ => .error .noFuel
  | fuel + 1, argc, s =>
    let look := stream.peek s dialect.stops
    if look.found then
      pure (([], []), look.next)
    else
      let word := stream.gettoken look.next
      if word.tok = nul then
        pure (([], []), word.next)
      else if word.tok ≠ 'a' then
        .error (.died dialect.badToken)
      else if argc + 1 ≥ maxArgs then
        .error (.died dialect.tooManyArgs)
      else do
        let redirs ← parseredirs dialect stream fuel word.next
        let rest ← parseargs fuel (argc + 1) redirs.2
        pure ((word.text :: rest.1.1, redirs.1 ++ rest.1.2), rest.2)

/-- The part of `parseexec` that reads a simple command. -/
def parsesimple (fuel : Nat) (s : S) : Except Fault (Cmd W × S) := do
  let first ← parseredirs dialect stream fuel s
  let rest ← parseargs dialect stream fuel 0 first.2
  pure ((first.1 ++ rest.1.2).foldl .redir (.exec rest.1.1), rest.2)

/-- The `while` loop of `parseline`. -/
def parseback : Nat → Cmd W → S → Except Fault (Cmd W × S)
  | 0, _, _ => .error .noFuel
  | fuel + 1, cmd, s =>
    let look := stream.peek s ['&']
    if look.found then
      parseback fuel (.back cmd) (stream.gettoken look.next).next
    else
      pure (cmd, look.next)

end

/-! ## The shell of xv6 -/

/-- `parseredirs` and `parseexec` of `xv6/sh.c`. -/
def xv6 : Dialect where
  stops := ['|', ')', '&', ';']
  redirection
    | '<' => some ([.rdonly], 0)
    | '>' => some ([.wronly, .create], 1)
    | '+' => some ([.wronly, .create], 1)
    | _ => none
  missingFile := "missing file for redirection"
  badToken := "syntax"
  tooManyArgs := "too many args"

section

variable {S W : Type} (stream : Stream S W)

mutual

def parseline : Nat → S → Except Fault (Cmd W × S)
  | 0, _ => .error .noFuel
  | fuel + 1, s => do
    let first ← parsepipe fuel s
    let cmd ← parseback stream fuel first.1 first.2
    let look := stream.peek cmd.2 [';']
    if look.found then
      let rest ← parseline fuel (stream.gettoken look.next).next
      pure (.list cmd.1 rest.1, rest.2)
    else
      pure (cmd.1, look.next)

def parsepipe : Nat → S → Except Fault (Cmd W × S)
  | 0, _ => .error .noFuel
  | fuel + 1, s => do
    let cmd ← parseexec fuel s
    let look := stream.peek cmd.2 ['|']
    if look.found then
      let rest ← parsepipe fuel (stream.gettoken look.next).next
      pure (.pipe cmd.1 rest.1, rest.2)
    else
      pure (cmd.1, look.next)

def parseexec : Nat → S → Except Fault (Cmd W × S)
  | 0, _ => .error .noFuel
  | fuel + 1, s =>
    let look := stream.peek s ['(']
    if look.found then
      parseblock fuel look.next
    else
      parsesimple xv6 stream fuel look.next

def parseblock : Nat → S → Except Fault (Cmd W × S)
  | 0, _ => .error .noFuel
  | fuel + 1, s =>
    let opening := stream.peek s ['(']
    if !opening.found then
      .error (.died "parseblock")
    else do
      let cmd ← parseline fuel (stream.gettoken opening.next).next
      let closing := stream.peek cmd.2 [')']
      if !closing.found then
        .error (.died "syntax - missing )")
      else
        let redirs ← parseredirs xv6 stream fuel (stream.gettoken closing.next).next
        pure (redirs.1.foldl .redir cmd.1, redirs.2)

end

end

/-! ## The characters of a line

The line is a list of characters; the cursor is an index into it, and the index one past
its end reads the terminator. -/

def whitespace : List Char := [' ', '\t', '\r', '\n', Char.ofNat 11]

def symbols : List Char := ['<', '|', '>', '&', ';', '(', ')']

def charAt (line : List Char) (s : Nat) : Char :=
  line.getD s nul

/-- `while(s < es && ...) s++` -/
def skip (test : Char → Bool) (line : List Char) (s : Nat) : Nat :=
  s + ((line.drop s).takeWhile test).length

def isWhitespace (c : Char) : Bool :=
  whitespace.contains c

def isWord (symbols : List Char) (c : Char) : Bool :=
  !whitespace.contains c && !symbols.contains c

/-- The pointers `q` and `eq` that `gettoken` stores. -/
structure Slice where
  start : Nat
  stop : Nat
deriving DecidableEq, Repr

def peek (line : List Char) (s : Nat) (toks : List Char) : Look Nat :=
  let s := skip isWhitespace line s
  ⟨charAt line s != nul && toks.contains (charAt line s), s⟩

/-- The `switch` of `gettoken`: the value returned and the end of the token. -/
def scanToken (line : List Char) (s : Nat) : Char × Nat :=
  let c := charAt line s
  if c = nul then (nul, s)
  else if c ∈ ['|', '(', ')', ';', '&', '<'] then (c, s + 1)
  else if c = '>' then
    if charAt line (s + 1) = '>' then ('+', s + 2) else ('>', s + 1)
  else ('a', skip (isWord symbols) line s)

def gettoken (line : List Char) (s : Nat) : Read Nat Slice :=
  let q := skip isWhitespace line s
  let token := scanToken line q
  ⟨token.1, ⟨q, token.2⟩, skip isWhitespace line token.2⟩

def chars (line : List Char) : Stream Nat Slice where
  peek := peek line
  gettoken := gettoken line

/-! ## Terminators -/

/-- Writes the terminator after each word of the command into the memory that holds the
line. -/
def nulterminate : Cmd Slice → List Char → List Char
  | .exec argv, memory => argv.foldl (fun memory word => memory.set word.stop nul) memory
  | .redir cmd redirection, memory =>
    (nulterminate cmd memory).set redirection.file.stop nul
  | .pipe left right, memory => nulterminate right (nulterminate left memory)
  | .list left right, memory => nulterminate right (nulterminate left memory)
  | .back cmd, memory => nulterminate cmd memory

/-- The command and the memory that its words point into. -/
def parsecmd (fuel : Nat) (line : List Char) : Except Fault (Cmd Slice × List Char) := do
  let cmd ← parseline (chars line) fuel 0
  let rest := peek line cmd.2 []
  if rest.next ≠ line.length then
    .error (.died "syntax")
  else
    pure (cmd.1, nulterminate cmd.1 (line ++ [nul]))

/-- The string that starts at an index of the memory. -/
def stringAt (memory : List Char) (start : Nat) : List Char :=
  (memory.drop start).takeWhile (· != nul)

def Redirection.map {W W' : Type} (f : W → W') (redirection : Redirection W) : Redirection W' :=
  ⟨f redirection.file, redirection.mode, redirection.fd⟩

def Cmd.map {W W' : Type} (f : W → W') : Cmd W → Cmd W'
  | .exec argv => .exec (argv.map f)
  | .redir cmd redirection => .redir (cmd.map f) (redirection.map f)
  | .pipe left right => .pipe (left.map f) (right.map f)
  | .list left right => .list (left.map f) (right.map f)
  | .back cmd => .back (cmd.map f)

/-- The command with its words read from memory. -/
def Cmd.strings (cmd : Cmd Slice) (memory : List Char) : Cmd (List Char) :=
  cmd.map fun word => stringAt memory word.start

end Laboratorio.Shell
