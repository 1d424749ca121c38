import ChatSystem.Chat.Secrecy
import ChatSystem.Protocol.Reencode

/-!
# What the receivers read

The messages a room sends are in the form in which receivers read them, so a client that reads
the bytes of all messages for its connection gets exactly these messages.
-/

namespace ChatSystem.Chat

open Bytes Channel

/-- The bytes of a sent message, by connection. -/
def bytesOf (x : Sent) : List (Nat × UInt8) := (packMessage x.frame).map (x.conn, ·)

/-- The bytes for a connection. -/
def wireTo (c : Nat) (wire : List (Nat × UInt8)) : List UInt8 :=
  wire.filterMap fun x => if x.1 = c then some x.2 else none

/-- Messages as their receivers read them. -/
def AsRead (out : List Sent) : Prop := ∀ x ∈ out, canonical x.frame = x.frame

variable {room : Room} {out out' : List Sent} {s : Slot} {slots : List Slot} {m : Message}

theorem canonical_idem (m : Message) : canonical (canonical m) = canonical m := by
  have h := unpack_pack (canonical m)
  rw [packMessage_canonical, unpack_pack] at h
  exact (Option.some.inj h).symm

/-! ## The messages of a room -/

theorem asRead_nil : AsRead [] := by
  intro x hx
  cases hx

theorem AsRead.append (h : AsRead out) (h' : AsRead out') : AsRead (out ++ out') := by
  intro x hx
  rcases List.mem_append.mp hx with hx | hx
  · exact h x hx
  · exact h' x hx

theorem asRead_copies {via : Via} : AsRead (room.copies slots via m) := by
  intro x hx
  obtain ⟨i, -, hi⟩ := List.mem_filterMap.mp hx
  obtain ⟨c, -, rfl⟩ := Option.map_eq_some_iff.mp hi
  exact canonical_idem m

theorem asRead_reply : AsRead (room.reply s m) := asRead_copies

theorem asRead_route (room : Room) (fl : Flavour) (env : Env) (s : Slot) (m : Message) :
    AsRead (room.route fl env s m).2 := by
  unfold Room.route
  split
  · unfold Room.login
    split
    · exact asRead_reply
    · split
      · exact asRead_reply
      · split <;> exact asRead_reply
  · unfold Room.logout
    split <;> exact asRead_copies
  · unfold Room.broadcast
    split
    · exact asRead_reply
    · exact asRead_copies.append asRead_reply
  · unfold Room.priv
    split
    · exact asRead_reply
    · split
      · exact asRead_reply
      · exact asRead_copies.append asRead_reply
  all_goals exact asRead_reply

theorem asRead_serve (fl : Flavour) (room : Room) (e : Event) : AsRead (serve fl room e).2 := by
  cases e with
  | connect env =>
    simp only [serve, Room.connect]
    split
    · intro x hx
      rw [List.mem_singleton.mp hx]
      exact canonical_idem _
    · exact asRead_nil
  | request c m env =>
    simp only [serve, Room.request]
    split
    · exact asRead_nil
    · exact asRead_route room fl env _ m.val
  | close c how =>
    simp only [serve, Room.close]
    split
    · exact asRead_nil
    · unfold Room.partings
      split
      · split
        · exact asRead_nil
        · exact asRead_copies
      · split
        · exact asRead_copies
        · exact asRead_nil

theorem asRead_outputs (fl : Flavour) (room : Room) (es : List Event) :
    AsRead (Reactive.outputs (serve fl) room es) := by
  induction es generalizing room with
  | nil => exact asRead_nil
  | cons e es ih => exact (asRead_serve fl room e).append (ih _)

theorem asRead_sentAt (fl : Flavour) (history : History) (es : List Event) :
    AsRead (sentAt fl history es) := asRead_outputs fl _ es

/-! ## The bytes of a connection -/

theorem wireTo_append (c : Nat) (wire wire' : List (Nat × UInt8)) :
    wireTo c (wire ++ wire') = wireTo c wire ++ wireTo c wire' :=
  List.filterMap_append

theorem wireTo_bytesOf (c : Nat) (out : List Sent) :
    wireTo c (out.flatMap bytesOf) = ((framesTo c out).map packMessage).flatten := by
  induction out with
  | nil => rfl
  | cons x out ih =>
    have hself : wireTo c (bytesOf x) = if x.conn = c then packMessage x.frame else [] := by
      unfold wireTo bytesOf
      rw [List.filterMap_map]
      split
      · next hx => simp [hx]
      · next hx => simp [hx]
    rw [List.flatMap_cons, wireTo_append, ih, hself]
    by_cases hx : x.conn = c <;> simp [framesTo, hx]

/-- Every message takes at least a byte. -/
theorem length_le_packed (ms : List Message) :
    ms.length ≤ ((ms.map packMessage).flatten).length := by
  induction ms with
  | nil => exact Nat.zero_le _
  | cons m ms ih =>
    have hpos := (isFrame_packMessage m).length_pos
    rw [List.map_cons, List.flatten_cons, List.length_append, List.length_cons]
    omega

theorem unpack_packed (ms : List Message) :
    (ms.map packMessage).filterMap unpackMessage = ms.map canonical := by
  rw [List.filterMap_map, ← List.filterMap_eq_map]
  apply List.filterMap_congr
  intro m _
  exact unpack_pack m

theorem isFrame_of_mem_packed {ms : List Message} {f : List UInt8} (hf : f ∈ ms.map packMessage) :
    frameFormat.IsFrame f := by
  obtain ⟨m, -, rfl⟩ := List.mem_map.mp hf
  exact isFrame_packMessage m

/-- Reception of a stream that is a front of messages returns a front of them. -/
theorem received_isPrefix {stream : List UInt8} {ms : List Message}
    (h : stream <+: (ms.map packMessage).flatten) {reads : List Answer} (hr : Steady reads)
    {n : Nat} (hn : stream.length < n) : received n ⟨stream, reads⟩ <+: ms.map canonical := by
  rw [received_eq hn hr, ← unpack_packed]
  exact (Framing.cut_isPrefix (fun f hf => isFrame_of_mem_packed hf) h).filterMap unpackMessage

/-- Reception of messages returns them. -/
theorem received_packed (ms : List Message) {reads : List Answer} (hr : Steady reads) {n : Nat}
    (hn : ((ms.map packMessage).flatten).length < n) :
    received n ⟨(ms.map packMessage).flatten, reads⟩ = ms.map canonical := by
  have hframes : ∀ f ∈ ms.map packMessage, frameFormat.IsFrame f :=
    fun f hf => isFrame_of_mem_packed hf
  have hcut := Framing.cut_flatten hframes []
  rw [List.append_nil, Framing.cut_nil, List.append_nil] at hcut
  rw [received_eq hn hr, hcut, unpack_packed]

/-- A client that reads the bytes of a room's messages reads the messages for it. -/
theorem received_sent (h : AsRead out) (c : Nat) {reads : List Answer} (hr : Steady reads) {n : Nat}
    (hn : (wireTo c (out.flatMap bytesOf)).length < n) :
    received n ⟨wireTo c (out.flatMap bytesOf), reads⟩ = framesTo c out := by
  rw [wireTo_bytesOf] at hn ⊢
  rw [received_packed _ hr hn]
  have hself : ∀ m ∈ framesTo c out, canonical m = m := by
    intro m hm
    obtain ⟨x, hx, hm⟩ := List.mem_filterMap.mp hm
    split at hm
    · cases hm
      exact h x hx
    · cases hm
  exact (List.map_congr_left hself).trans (List.map_id' _)

end ChatSystem.Chat
