import ChatSystem.Epoll.Framing
import ChatSystem.Protocol.Reencode

/-!
# Payloads as strings

The programs hand a received payload to `sscanf`, `printf`, `fprintf`, `strncpy`
and `strncmp`, which look for its end in memory. A use may not examine more than
the 1024 bytes of the array. Behind a payload that fills the array without a
zero byte, the memory behind the message is examined, and printed.
-/

namespace ChatSystem

open Bytes Transition

/-- A use of a payload by a function of the C library. -/
inductive Use
  /-- The input of `sscanf`, or the argument of a `%s`. -/
  | text
  /-- `strncpy(_, payload, n)`. -/
  | copy (n : Nat)
  /-- `strncmp(payload, lit, |lit|)`. -/
  | compare (lit : List UInt8)

/-- The number of bytes a use examines of the memory that starts with the payload. -/
def Use.extent (mem : List UInt8) : Use → Nat
  | .text => (cstr mem).length + 1
  | .copy n => min ((cstr mem).length + 1) n
  | .compare lit =>
    min (((mem.zip lit).takeWhile fun p => p.1 == p.2 && p.1 != 0).length + 1) lit.length

/-- The programs that receive messages; the three chat servers use payloads alike. -/
inductive Receiver
  | server
  | discovery
  | client

/-- What a program does with the payload of a message: a server with that of a logged in user,
the client in `print_message`. -/
def uses (m : Message) : Receiver → List Use
  | .server =>
    match m.kind with
    | some .login => [.text]
    | some .broadcast | some .priv => [.text, .text]
    | some .statusChange => [.compare (ascii "busy"), .compare (ascii "away")]
    | _ => []
  | .discovery =>
    match m.kind with
    | some .register | some .validate => [.text]
    | some .discover => [.copy (maxUsernameLen - 1)]
    | _ => []
  | .client =>
    match m.kind with
    | some .ack => if byteAt m.payload.toList 0 = 0 then [] else [.text]
    | _ => [.text]

/-- Every program finds the end of the payload in the array and examines nothing behind it,
whatever is there. -/
def StringsEnd (m : Message) : Prop :=
  ∀ r, ∀ u ∈ uses m r, 0 ∈ m.payload.toList ∧
    ∀ behind, u.extent (m.payload.toList ++ behind) ≤ maxPayloadLen

/-- A frame announces less than a full payload, or has a zero byte in it. -/
def EndsInside (f : List UInt8) : Prop :=
  (announcedLen f).toNat < maxPayloadLen ∨ 0 ∈ f.drop headerSize

variable {f mem : List UInt8} {m : Message}

/-! ## What a use examines -/

theorem length_compared_le (mem lit : List UInt8) :
    ((mem.zip lit).takeWhile fun p => p.1 == p.2 && p.1 != 0).length ≤ (cstr mem).length := by
  induction mem generalizing lit with
  | nil => simp
  | cons b mem ih =>
    cases lit with
    | nil => simp
    | cons c lit =>
      rw [List.zip_cons_cons, List.takeWhile_cons]
      split
      · next h =>
        have hb : b ≠ 0 := by
          rw [Bool.and_eq_true] at h
          simpa using h.2
        rw [cstr_cons_of_ne hb, List.length_cons, List.length_cons]
        exact Nat.succ_le_succ (ih lit)
      · exact Nat.zero_le _

/-- No use goes beyond the end of the string. -/
theorem Use.extent_le (u : Use) (mem : List UInt8) : u.extent mem ≤ (cstr mem).length + 1 := by
  cases u with
  | text => exact Nat.le_refl _
  | copy n => exact Nat.min_le_left _ _
  | compare lit =>
    have hle := length_compared_le mem lit
    exact (Nat.min_le_left _ _).trans (Nat.succ_le_succ hle)

/-- A string that ends in its array is the same whatever is behind the array. -/
theorem cstr_append_of_mem (h : 0 ∈ mem) (behind : List UInt8) :
    cstr (mem ++ behind) = cstr mem := by
  induction mem with
  | nil => cases h
  | cons b mem ih =>
    by_cases hb : b = 0
    · rw [hb, List.cons_append, cstr_cons_zero, cstr_cons_zero]
    · have hmem : 0 ∈ mem := by
        rcases List.mem_cons.mp h with h | h
        · exact absurd h.symm hb
        · exact h
      rw [List.cons_append, cstr_cons_of_ne hb, cstr_cons_of_ne hb, ih hmem]

/-- Without an end in the array, the string goes on with what is behind it. -/
theorem cstr_append_of_not_mem (h : 0 ∉ mem) (behind : List UInt8) :
    cstr (mem ++ behind) = mem ++ cstr behind := by
  have hne : ∀ b ∈ mem, (decide (b ≠ 0)) = true := by
    intro b hb
    have hb' : b ≠ 0 := by
      rintro rfl
      exact h hb
    simpa using hb'
  exact List.takeWhile_append_of_pos hne

theorem length_cstr_lt (h : 0 ∈ mem) : (cstr mem).length < mem.length := by
  refine lt_of_le_of_ne (length_cstr_le mem) fun heq => ?_
  have hall := (List.takeWhile_prefix _).eq_of_length heq
  rw [← hall] at h
  exact mem_cstr h rfl

/-! ## Messages -/

/-- Every use of a payload stays in the array exactly if the payload ends there. -/
theorem stringsEnd_iff : StringsEnd m ↔ 0 ∈ m.payload.toList := by
  constructor
  · intro h
    by_cases hzero : 0 ∈ m.payload.toList
    · exact hzero
    · -- the client prints every payload that does not start with a zero byte
      have huse : .text ∈ uses m .client := by
        have hhead : byteAt m.payload.toList 0 ≠ 0 := by
          intro hh
          have hlen : 0 < m.payload.toList.length := by
            rw [List.Vector.toList_length]
            decide
          rw [byteAt, List.getElem?_eq_getElem hlen, Option.getD_some] at hh
          exact hzero (hh ▸ List.getElem_mem hlen)
        unfold uses
        simp only
        split
        · rw [if_neg hhead]
          exact List.mem_cons_self
        · exact List.mem_cons_self
      exact (h .client _ huse).1
  · intro hzero r u hu
    refine ⟨hzero, fun behind => ?_⟩
    have hlt := length_cstr_lt hzero
    have hle := u.extent_le (m.payload.toList ++ behind)
    rw [cstr_append_of_mem hzero] at hle
    rw [List.Vector.toList_length] at hlt
    omega

/-- What a terminated payload prints is what the programs are modelled to see. -/
theorem StringsEnd.cstr_eq (h : StringsEnd m) (behind : List UInt8) :
    cstr (m.payload.toList ++ behind) = m.payloadStr :=
  cstr_append_of_mem (stringsEnd_iff.mp h) behind

/-- The payload of an accepted frame has an end exactly if the frame has one. -/
theorem mem_payload_iff (hf : frameFormat.IsFrame f) (h : unpackMessage f = some m) :
    0 ∈ m.payload.toList ↔ EndsInside f := by
  obtain ⟨hle, hlen⟩ := isFrame_iff.mp hf
  obtain ⟨-, -, -, -, -, -, -, -, hpayload⟩ := unpackMessage_eq_some h
  have hbody : (f.drop headerSize).length = (announcedLen f).toNat := by
    rw [List.length_drop]
    omega
  have htake : (f.drop headerSize).take (announcedLen f).toNat = f.drop headerSize := by
    rw [← hbody, List.take_length]
  rw [hpayload, htake, payloadAt, toList_fit, List.take_of_length_le (by omega), List.mem_append,
    hbody, List.mem_replicate, EndsInside]
  constructor
  · rintro (hin | ⟨hpos, -⟩)
    · exact Or.inr hin
    · exact Or.inl (by omega)
  · rintro (hshort | hin)
    · exact Or.inr ⟨by omega, rfl⟩
    · exact Or.inl hin

/-! ## Receivers -/

/-- What the epoll server processes was cut from the stream of its connection. -/
theorem frame_of_processed {history : History} {srv : Epoll.Server} {c : Nat}
    (h : Reachable Epoll.step (Epoll.Server.init history) srv)
    (hm : m ∈ Epoll.processedOf c srv.log) :
    ∃ f ∈ (frameFormat.cut (Epoll.streamOf c srv.log)).1, unpackMessage f = some m := by
  have hlink := Epoll.linked_of_reachable h c
  have hprocessed := hlink.processed
  have hlive := hlink.live
  rw [Epoll.arrivalsOf_inputLog] at hlive hprocessed
  rw [← Epoll.processedOf_inputLog, hprocessed] at hm
  obtain ⟨f, hf, hunpack⟩ := List.mem_filterMap.mp hm
  exact ⟨f, Reassembly.through_subset (hlive.isPrefix.subset hf), hunpack⟩

/-- A broadcast of 1024 bytes without a zero byte. -/
def fullBroadcast : Message :=
  makeMessage 0 .broadcast (ascii "alice") [] (List.replicate maxPayloadLen 65)

theorem payload_fullBroadcast : fullBroadcast.payload.toList = List.replicate maxPayloadLen 65 := by
  have hstr : cstr (List.replicate maxPayloadLen 65) = List.replicate maxPayloadLen 65 := by
    apply cstr_of_forall_ne
    intro b hb
    rw [List.eq_of_mem_replicate hb]
    decide
  have hlen : (List.replicate maxPayloadLen (65 : UInt8)).length ≤ maxPayloadLen := by
    rw [List.length_replicate]
  change padded maxPayloadLen (List.replicate maxPayloadLen 65) = _
  rw [padded, hstr, List.take_of_length_le hlen, List.length_replicate, Nat.sub_self,
    List.replicate_zero, List.append_nil]

end ChatSystem
