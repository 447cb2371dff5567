import Isopace.Lib.Bytes
import Isopace.Lib.Chunks

/-!
# Links

Model of link/framer.go and of `Send` and `Receive` (link/link.go 124-153). A connection is
what was written and the chunks still to be read. An `int` has 64 bits. Deadlines and errors of the
connection are left out.
-/

namespace Isopace.Link

set_option linter.dupNamespace false

open Lib

/-! ## The framer -/

inductive FrameErr
  | eof
  | unexpectedEOF
  | tooLarge
  deriving DecidableEq, Repr

def FrameErr.ofEnd : EndOfStream → FrameErr
  | .eof => .eof
  | .unexpectedEOF => .unexpectedEOF

def defaultMaxFrame : ℕ := 2 ^ 20

/-- `lengthPrefix`, as `LengthPrefix` makes it for two octets and for four. -/
structure LengthPrefix where
  width : ℕ
  max : ℕ
  made : width = 2 ∧ max = 2 ^ 16 - 1 ∨ width = 4 ∧ max = defaultMaxFrame

/-- What `ReadFrame` returns and leaves unread, and the length of the buffer it allocates. -/
structure FrameRead where
  result : Except FrameErr Bytes
  rest : List Bytes
  allocated : Option ℕ

namespace LengthPrefix

/-- `ReadFrame`, framer.go:55. -/
def readFrame (lp : LengthPrefix) (r : List Bytes) : FrameRead :=
  match readFull lp.width r with
  | (.error e, r) => ⟨.error (.ofEnd e), r, none⟩
  | (.ok hdr, r) =>
    let n := beNat hdr
    if n > lp.max then ⟨.error .tooLarge, r, none⟩
    else
      match readFull n r with
      | (.error e, r) => ⟨.error (.ofEnd e), r, some n⟩
      | (.ok body, r) => ⟨.ok body, r, some n⟩

/-- `WriteFrame`, framer.go:77. -/
def writeFrame (lp : LengthPrefix) (w msg : Bytes) : Except FrameErr Bytes :=
  if msg.length > lp.max then .error .tooLarge
  else .ok (w ++ (beBytes lp.width msg.length ++ msg))

end LengthPrefix

/-! ## Links -/

variable {E : Type}

/-- `Filter`, link.go:39. -/
structure Filter (E : Type) where
  apply : Bytes → (outgoing : Bool) → Except E Bytes

def applyFilters (outgoing : Bool) : List (Filter E) → Bytes → Except E Bytes
  | [], msg => .ok msg
  | f :: fs, msg =>
    match f.apply msg outgoing with
    | .error e => .error e
    | .ok out => applyFilters outgoing fs out

inductive LinkErr (E : Type)
  | closed
  | filter (e : E)
  | frame (e : FrameErr)

/-- `Link`, with a length-prefix framer. -/
structure Link (E : Type) where
  framer : LengthPrefix
  filters : List (Filter E)
  closed : Bool

namespace Link

/-- `Send`, link.go:124. -/
def send (l : Link E) (w msg : Bytes) : Except (LinkErr E) Bytes :=
  if l.closed then .error .closed
  else
    match applyFilters true l.filters msg with
    | .error e => .error (.filter e)
    | .ok out =>
      match l.framer.writeFrame w out with
      | .error e => .error (.frame e)
      | .ok w => .ok w

/-- `Receive`, link.go:142. -/
def receive (l : Link E) (r : List Bytes) : Except (LinkErr E) Bytes × List Bytes :=
  let f := l.framer.readFrame r
  match f.result with
  | .error e => (.error (.frame e), f.rest)
  | .ok msg =>
    match applyFilters false l.filters.reverse msg with
    | .error e => (.error (.filter e), f.rest)
    | .ok msg => (.ok msg, f.rest)

/-- What has been written, and the messages that were accepted. -/
def sendAll (l : Link E) : (w : Bytes) → List Bytes → Bytes × List Bytes
  | w, [] => (w, [])
  | w, msg :: msgs =>
    match l.send w msg with
    | .error _ => l.sendAll w msgs
    | .ok w' => ((l.sendAll w' msgs).1, msg :: (l.sendAll w' msgs).2)

/-- Calls `Receive` `n` times: the results, and the chunks that are left. -/
def receiveAll (l : Link E) : (n : ℕ) → List Bytes → List (Except (LinkErr E) Bytes) × List Bytes
  | 0, r => ([], r)
  | n + 1, r =>
    ((l.receive r).1 :: (l.receiveAll n (l.receive r).2).1, (l.receiveAll n (l.receive r).2).2)

end Link

end Isopace.Link
