import Mathlib.Data.List.GetD
import UltrafastFeed.Lib.Endian

/-!
# FeedEvent

The owned snapshot of a received market-data packet (`feed_event.hpp`).
The payload is an array of `kMaxPayload` bytes whatever `payload_len`
says; `payload_len` is a 16-bit field of its own and nothing in the type
ties the two together. The `_pad` bytes are left out: no function of the
source reads them.
-/

namespace UltrafastFeed

open Lib.Endian

/-- `FeedEvent::kMaxPayload`. -/
def kMaxPayload : Nat := 64

structure FeedEvent where
  injectNs : UInt64 := 0
  receiveNs : UInt64 := 0
  /-- Network byte order. -/
  srcIp : UInt32 := 0
  srcPort : UInt16 := 0
  dstPort : UInt16 := 0
  payloadLen : UInt16 := 0
  payload : Vector UInt8 kMaxPayload := Vector.replicate kMaxPayload 0
  deriving DecidableEq, Repr

/-- A copy of up to `kMaxPayload` bytes into a zeroed payload array. -/
def payloadOf (bs : List UInt8) : Vector UInt8 kMaxPayload :=
  Vector.ofFn fun i => bs.getD i.val 0

@[simp] theorem payloadOf_toList (v : Vector UInt8 kMaxPayload) :
    payloadOf v.toList = v := by
  apply Vector.ext
  intro i hi
  simp [payloadOf]

@[simp] theorem payload_length (v : Vector UInt8 kMaxPayload) :
    v.toList.length = 64 :=
  Vector.length_toList

theorem payloadOf_of_le {bs : List UInt8} (h : bs.length ≤ kMaxPayload) :
    (payloadOf bs).toList = bs ++ List.replicate (kMaxPayload - bs.length) 0 := by
  apply List.ext_getElem
  · rw [Vector.length_toList, List.length_append, List.length_replicate]
    omega
  · intro i hi hi'
    rw [Vector.getElem_toList]
    simp only [payloadOf, Vector.getElem_ofFn]
    by_cases hin : i < bs.length
    · rw [List.getElem_append_left hin, List.getD_eq_getElem _ _ hin]
    · rw [List.getElem_append_right (Nat.le_of_not_lt hin), List.getElem_replicate,
        List.getD_eq_default _ _ (Nat.le_of_not_lt hin)]

end UltrafastFeed
