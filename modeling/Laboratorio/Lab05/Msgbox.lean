import Laboratorio.Lib.CString

/-! # The messages of `msgbox.c`

`send_message` builds a `msg_t` from the login name and the text, and `receive_message` prints
one.  A `msg_t` is its bytes: `sender` first, then `text`; what lies behind them belongs to
others.  The bytes that no call has written are arbitrary.
-/

namespace Laboratorio.Lab05.Msgbox

open Laboratorio.Lib Laboratorio.Lib.CString

def usernameMaxsize : Nat := 15

def txtSize : Nat := 100

/-- The bytes of a `msg_t` and what follows it in memory. -/
abbrev Msg := Chars

def Msg.sender (msg : Msg) : Chars := msg

def Msg.text (msg : Msg) : Chars := fun j => msg (usernameMaxsize + j)

/-- A name that does not fit with its NUL is not written. -/
def getloginR (login : Word) (username : Chars) : Chars :=
  if login.bytes.length < usernameMaxsize then strncpy username login.chars (login.bytes.length + 1)
  else username

/-- The message that `send_message` queues; `username` and `msg` are uninitialised. -/
def sendMessage (login message : Word) (username : Chars) (msg : Msg) : Msg := fun j =>
  if j < usernameMaxsize then strncpy msg.sender (getloginR login username) usernameMaxsize j
  else strncpy msg.text message.chars txtSize (j - usernameMaxsize)

/-- What `receive_message` prints, unless it reads behind the message. -/
def receiveMessage (msg : Msg) : Option (List UInt8 × List UInt8) := do
  let sender ← CString.text msg.sender (usernameMaxsize + txtSize)
  let text ← CString.text msg.text txtSize
  pure (sender, text)

section

variable (login message : Word) (username : Chars) (msg : Msg)

theorem sender_eq (fits : login.bytes.length < usernameMaxsize) {j : Nat}
    (inside : j < usernameMaxsize) :
    (sendMessage login message username msg).sender j = login.bytes.getD j 0 := by
  rw [Msg.sender, sendMessage, if_pos inside]
  apply strncpy_eq login.noNul _ inside
  intro i _ within
  rw [getloginR, if_pos fits]
  exact strncpy_eq login.noNul (fun _ _ _ => rfl) (Nat.lt_succ_of_le within)

theorem text_getD {j : Nat} (inside : j < txtSize) :
    (sendMessage login message username msg).text j = message.bytes.getD j 0 := by
  rw [Msg.text, sendMessage, if_neg (by omega), Nat.add_sub_cancel_left]
  exact strncpy_eq message.noNul (fun _ _ _ => rfl) inside

/-- Whatever the arrays held before, the name and the text are terminated and printed as far as
they fit, exactly if both fit in their fields with a NUL. -/
theorem message_received (login message : Word) :
    (∀ username msg, (∃ j < usernameMaxsize, (sendMessage login message username msg).sender j = 0) ∧
      (∃ j < txtSize, (sendMessage login message username msg).text j = 0) ∧
      receiveMessage (sendMessage login message username msg) =
        some (login.cut usernameMaxsize, message.cut txtSize)) ↔
    login.bytes.length < usernameMaxsize ∧ message.bytes.length < txtSize := by
  constructor
  · intro received
    -- a name that does not fit leaves the sevens where they are
    obtain ⟨⟨j, inName, nulName⟩, ⟨i, inText, nulText⟩, -⟩ := received (fun _ => 7) fun _ => 7
    constructor
    · refine Nat.lt_of_not_le fun long => ?_
      let sevens : Word := ⟨List.replicate usernameMaxsize 7, by decide⟩
      rw [Msg.sender, sendMessage, if_pos inName, getloginR, if_neg (Nat.not_lt.mpr long),
        strncpy_eq sevens.noNul (fun k inside _ => (List.getD_replicate _ inside).symm) inName]
        at nulName
      exact sevens.getD_ne_zero (by simpa [sevens] using inName) nulName
    · refine Nat.lt_of_not_le fun long => ?_
      rw [text_getD _ _ _ _ inText] at nulText
      exact message.getD_ne_zero (Nat.lt_of_lt_of_le inText long) nulText
  · rintro ⟨nameFits, textFits⟩ username msg
    rw [login.cut_eq nameFits, message.cut_eq textFits]
    refine ⟨⟨_, nameFits, ?_⟩, ⟨_, textFits, ?_⟩, ?_⟩
    · rw [sender_eq _ _ _ _ nameFits nameFits, List.getD_eq_default _ _ (Nat.le_refl _)]
    · rw [text_getD _ _ _ _ textFits, List.getD_eq_default _ _ (Nat.le_refl _)]
    · have readsName := text_eq login.noNul (Nat.lt_add_right txtSize nameFits)
        fun j within => sender_eq login message username msg nameFits (Nat.lt_of_le_of_lt within nameFits)
      have readsText := text_eq message.noNul textFits
        fun j within => text_getD login message username msg (Nat.lt_of_le_of_lt within textFits)
      rw [receiveMessage, readsName, readsText]
      rfl

end

theorem hola_received :
    receiveMessage (sendMessage ⟨[97, 110, 97], by decide⟩ ⟨[104, 111, 108, 97], by decide⟩
      (fun _ => 7) (fun _ => 7)) = some ([97, 110, 97], [104, 111, 108, 97]) :=
  ((message_received ⟨[97, 110, 97], by decide⟩ ⟨[104, 111, 108, 97], by decide⟩).mpr
    (by decide) (fun _ => 7) fun _ => 7).2.2

/-- A text of `txtSize` bytes leaves no room for the NUL, and printing it reads behind the
message. -/
theorem long_text_unterminated :
    let msg := sendMessage ⟨[97], by decide⟩ ⟨List.replicate txtSize 97, by decide⟩ (fun _ => 7)
      (fun _ => 7)
    (¬ ∃ j < txtSize, msg.text j = 0) ∧ receiveMessage msg = none := by
  decide +kernel

end Laboratorio.Lab05.Msgbox
