import ChatSystem.Protocol.Stream
import ChatSystem.Server.Replies

/-!
# The verdict on a login

The four answers a server has for a login, and what its clients make of the first frame they get
behind theirs. Both clients are right about an answer; neither looks at whose frame it is.
-/

namespace ChatSystem

open Bytes Channel

/-- A frame is the answer to a login, and the flag says whether the login is granted. -/
inductive IsVerdict (m : Message) : Message → Bool → Prop
  | badLogin (now : UInt64) (h : scanLogin m.payload.toList = none) :
    IsVerdict m (badLogin now) false
  | alreadyLoggedIn (now : UInt64) {u p : List UInt8}
    (h : scanLogin m.payload.toList = some (u, p)) : IsVerdict m (alreadyLoggedIn now u) false
  | invalidCredentials (now : UInt64) {u p : List UInt8}
    (h : scanLogin m.payload.toList = some (u, p)) : IsVerdict m (invalidCredentials now u) false
  | loginSuccessful (now : UInt64) {u p : List UInt8}
    (h : scanLogin m.payload.toList = some (u, p)) : IsVerdict m (loginSuccessful now u) true

/-- `login_to_chat` behind its request; `true` is the result 0. -/
def loginToChat (src : Source UInt8) : Bool :=
  match (recvMessage src).1 with
  | none => false
  | some resp => resp.status == 0 && resp.type != MsgType.error.code

/-- `recv` of the benchmark on the bytes that arrive: the type of the frame in front. -/
def benchmarkRecv (stream : List UInt8) : Option UInt8 :=
  if stream.length < headerSize + (announcedLen stream).toNat then none else stream.head?

/-- `Client._conn` of the benchmark behind its request; `true` where it keeps the socket. -/
def benchmarkConn (stream : List UInt8) : Bool := benchmarkRecv stream == some 0x40

variable {m f : Message} {b : Bool}

/-- The benchmark reads the type of the frame in front. -/
theorem benchmarkRecv_packMessage (f : Message) (t : List UInt8) :
    benchmarkRecv (packMessage f ++ t) = some f.type.toUInt8 := by
  have hann : announcedLen (packMessage f ++ t) = packedLen f := by
    rw [packMessage, List.append_assoc, announcedLen_packHeader]
  have hlen : ¬ (packMessage f ++ t).length < headerSize + (packedLen f).toNat := by
    rw [List.length_append, length_packMessage]
    omega
  rw [benchmarkRecv, hann, if_neg hlen, packMessage, List.append_assoc, packHeader_eq,
    List.head?_cons]

theorem IsVerdict.wellFormed (h : IsVerdict m f b) : WellFormed f := by
  have herror : ∀ (now : UInt64) (r p : List UInt8), WellFormed (makeError now serverName r p) :=
    fun now r p => { wellFormed_makeMessage now .error serverName r p with }
  cases h with
  | loginSuccessful now h => exact wellFormed_makeMessage ..
  | _ => exact herror ..

/-- `login_to_chat` takes an answer for what it says. -/
theorem IsVerdict.loginToChat_eq (h : IsVerdict m f b) (t : List UInt8) {as : List Answer}
    (hs : Steady as) : loginToChat ⟨packMessage f ++ t, as⟩ = b := by
  rw [loginToChat, (recvMessage_packMessage h.wellFormed t hs).1]
  cases h <;> rfl

/-- So does the benchmark. -/
theorem IsVerdict.benchmarkConn_eq (h : IsVerdict m f b) (t : List UInt8) :
    benchmarkConn (packMessage f ++ t) = b := by
  rw [benchmarkConn, benchmarkRecv_packMessage]
  cases h <;> rfl

end ChatSystem
