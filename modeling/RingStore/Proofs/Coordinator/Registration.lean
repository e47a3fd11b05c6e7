import RingStore.Coordinator
import RingStore.Proofs.Ring.Membership
import Mathlib.Data.Finset.Card

/-!
# What a registration puts on the ring

A replica's place on the ring is the digest of its address, and there is one member in a place. A
registration that is answered with success leaves a member in the place of the address. It is the
replica at that address, unless another address with the same place came first: then the ring stays
as it was. So the ring counts the places of the addresses that were welcomed, and it counts these
addresses themselves as long as no two of them meet in one place.
-/

namespace RingStore

namespace Ring

variable {r r' : Ring} {m : Member}

/-- The ids on a ring that took a member. -/
theorem mem_ids_insert_iff (hinsert : r.insert m = .ok r') {place : Int} :
    place ∈ r'.members.map Member.id ↔ place ∈ r.members.map Member.id ∨ place = m.id := by
  rcases insert_eq_ok_iff.1 hinsert with ⟨⟨y, hy, hid⟩, rfl⟩ | ⟨hnew, -, rfl⟩
  · refine ⟨.inl, ?_⟩
    rintro (hplace | rfl)
    · exact hplace
    · exact List.mem_map.2 ⟨y, hy, hid⟩
  · rw [((members_insert_perm hnew).map Member.id).mem_iff, List.map_cons, List.mem_cons, or_comm]

/-- The members of a ring in order stand in as many places as there are members. -/
theorem Ordered.card_ids (h : r.Ordered) : (r.members.map Member.id).toFinset.card = r.size := by
  rw [List.toFinset_card_of_nodup h.nodup_ids, List.length_map, size]

end Ring

namespace Member

/-- The place of the replica at an address. -/
def placeOf (address : String × UInt16) : Int := idOf address.1 address.2

theorem id_atAddress (host : String) (port : UInt16) :
    (atAddress host port).id = idOf host port := rfl

/-- The replica at an address is the member with its place, its host and its port. -/
theorem eq_atAddress {m : Member} {host : String} {port : UInt16} (hid : m.id = idOf host port)
    (haddress : (m.host, m.port) = (host, port)) : m = atAddress host port := by
  obtain ⟨id, host', port'⟩ := m
  obtain ⟨rfl, rfl⟩ := Prod.mk.inj haddress
  obtain rfl : id = idOf host' port' := hid
  rfl

end Member

namespace Coordinator

variable {c : Coordinator} {host : String} {port : UInt16} {ring : Ring}

/-- A registration is answered with success if the ring takes the replica. -/
theorem register_of_ok (h : c.ring.register host port = .ok ring) :
    c.register host port = (.success, { c with ring }) := by
  rw [register, h]

theorem exists_of_register (h : (c.register host port).1 = .success) :
    ∃ ring, c.ring.register host port = .ok ring := by
  cases hring : c.ring.register host port with
  | ok ring => exact ⟨ring, rfl⟩
  | error f =>
    have hfault : Response.ofFault f = .success := by simpa only [register, hring] using h
    have hsuccess : Response.success.isSuccess = true := by decide
    rw [← hfault, Response.isSuccess_ofFault] at hsuccess
    cases hsuccess

/-- A registration that is not answered with success changes nothing. -/
theorem register_of_ne_success (h : (c.register host port).1 ≠ .success) :
    (c.register host port).2 = c := by
  cases hring : c.ring.register host port with
  | ok ring => exact absurd (by rw [register_of_ok hring]) h
  | error f => rw [register, hring]

/-- Puts addresses on the ring, one after the other, and lists those that were answered with
success. -/
def enroll (c : Coordinator) : List (String × UInt16) → List (String × UInt16) × Coordinator
  | [] => ([], c)
  | (host, port) :: rest =>
    let next := (c.register host port).2.enroll rest
    (if (c.register host port).1 = .success then (host, port) :: next.1 else next.1, next.2)

/-- One registration keeps the ring in order, and adds the place of a welcomed address to those that
are taken. -/
theorem register_places (hordered : c.ring.Ordered) (address : String × UInt16) :
    (c.register address.1 address.2).2.ring.Ordered ∧
      ((c.register address.1 address.2).2.ring.members.map Member.id).toFinset =
        (c.ring.members.map Member.id).toFinset ∪
          (if (c.register address.1 address.2).1 = .success
            then {Member.placeOf address} else ∅) := by
  by_cases hwelcome : (c.register address.1 address.2).1 = .success
  · obtain ⟨ring, hring⟩ := exists_of_register hwelcome
    rw [if_pos hwelcome, register_of_ok hring]
    refine ⟨hordered.insert hring, Finset.ext fun place => ?_⟩
    rw [Finset.mem_union, List.mem_toFinset, List.mem_toFinset, Finset.mem_singleton]
    have hinsert : c.ring.insert (.atAddress address.1 address.2) = .ok ring := hring
    rw [Ring.mem_ids_insert_iff hinsert, Member.id_atAddress, Member.placeOf]
  · rw [if_neg hwelcome, register_of_ne_success hwelcome, Finset.union_empty]
    exact ⟨hordered, rfl⟩

/-- The places that are taken after any registrations: those from before, and those of the welcomed
addresses. -/
theorem enroll_places (hordered : c.ring.Ordered) (addresses : List (String × UInt16)) :
    (c.enroll addresses).2.ring.Ordered ∧
      ((c.enroll addresses).2.ring.members.map Member.id).toFinset =
        (c.ring.members.map Member.id).toFinset ∪
          (c.enroll addresses).1.toFinset.image Member.placeOf := by
  induction addresses generalizing c with
  | nil => exact ⟨hordered, by simp [enroll]⟩
  | cons address rest ih =>
    obtain ⟨hnext, hplaces⟩ := register_places hordered address
    obtain ⟨hlast, hall⟩ := ih hnext
    refine ⟨hlast, ?_⟩
    have henroll : (c.enroll (address :: rest)).2 =
      ((c.register address.1 address.2).2.enroll rest).2 := rfl
    have hwelcomed : (c.enroll (address :: rest)).1 =
      if (c.register address.1 address.2).1 = .success
        then address :: ((c.register address.1 address.2).2.enroll rest).1
        else ((c.register address.1 address.2).2.enroll rest).1 := rfl
    rw [henroll, hall, hplaces, hwelcomed, Finset.union_assoc]
    congr 1
    split
    · rw [List.toFinset_cons, Finset.image_insert, ← Finset.insert_eq]
    · rw [Finset.empty_union]

/-- **A successful registration is a real one, place by place.** A registration that the ring takes
is answered with success, and afterwards everyone from before is still on the ring, together with
the replica at the address, unless another address had its place before: then the ring is as it was.
After any registrations on a ring without members there are as many members as there are places of
welcomed addresses, and as many as there are welcomed addresses exactly if no two of these share a
place. -/
theorem registered_by_place (c : Coordinator) :
    (∀ host port ring, c.ring.register host port = .ok ring →
      c.register host port = (.success, { c with ring }) ∧
      (∀ x ∈ c.ring.members, x ∈ ring.members) ∧
      (.atAddress host port ∈ ring.members ∨
        ring = c.ring ∧ ∃ x ∈ c.ring.members,
          x.id = Member.idOf host port ∧ (x.host, x.port) ≠ (host, port))) ∧
    (c.ring.members = [] → ∀ addresses,
      (c.enroll addresses).2.ring.size =
        ((c.enroll addresses).1.toFinset.image Member.placeOf).card ∧
      ((c.enroll addresses).2.ring.size = (c.enroll addresses).1.toFinset.card ↔
        ∀ a ∈ (c.enroll addresses).1, ∀ b ∈ (c.enroll addresses).1,
          Member.placeOf a = Member.placeOf b → a = b)) := by
  constructor
  · intro host port ring hring
    have hinsert : c.ring.insert (.atAddress host port) = .ok ring := hring
    refine ⟨register_of_ok hring, fun x hx => (Ring.mem_insert_iff hinsert).2 (.inl hx), ?_⟩
    rcases Ring.insert_eq_ok_iff.1 hinsert with ⟨⟨x, hx, hid⟩, rfl⟩ | ⟨hnew, -, -⟩
    · rw [Member.id_atAddress] at hid
      by_cases haddress : (x.host, x.port) = (host, port)
      · rw [← Member.eq_atAddress hid haddress]
        exact .inl hx
      · exact .inr ⟨rfl, x, hx, hid, haddress⟩
    · exact .inl ((Ring.mem_insert_iff hinsert).2 (.inr ⟨rfl, hnew⟩))
  · intro hempty addresses
    have hordered : c.ring.Ordered := by
      rw [Ring.Ordered, hempty]
      exact List.Pairwise.nil
    obtain ⟨hlast, hplaces⟩ := enroll_places hordered addresses
    have hsize : (c.enroll addresses).2.ring.size =
        ((c.enroll addresses).1.toFinset.image Member.placeOf).card := by
      rw [← hlast.card_ids, hplaces, hempty, List.map_nil, List.toFinset_nil, Finset.empty_union]
    refine ⟨hsize, ?_⟩
    rw [hsize, Finset.card_image_iff]
    constructor
    · intro hinj a ha b hb hab
      exact hinj (List.mem_toFinset.2 ha) (List.mem_toFinset.2 hb) hab
    · intro hinj a ha b hb hab
      exact hinj a (List.mem_toFinset.1 ha) b (List.mem_toFinset.1 hb) hab

/-- A coordinator that expects two replicas. -/
def expectingTwo : Coordinator :=
  ⟨{ CoordinatorSettings.standard with capacity := 2 }, Ring.create 2,
    ⟨1, Nat.one_pos, #v[⟨2, []⟩]⟩, false, 0⟩

/-- A replica is put on a ring without members and is registered once more. -/
theorem registered_by_place_twice :
    ∃ ring, expectingTwo.ring.register "a" 1 = .ok ring ∧
      (.atAddress "a" 1 ∈ ring.members ∨ ring = expectingTwo.ring ∧ ∃ x ∈ expectingTwo.ring.members,
        x.id = Member.idOf "a" 1 ∧ (x.host, x.port) ≠ ("a", 1)) ∧
      (expectingTwo.enroll [("a", 1), ("a", 1)]).2.ring.size =
        ((expectingTwo.enroll [("a", 1), ("a", 1)]).1.toFinset.image Member.placeOf).card := by
  have hring : expectingTwo.ring.register "a" 1 = .ok ⟨2, [.atAddress "a" 1]⟩ := rfl
  exact ⟨_, hring, ((registered_by_place expectingTwo).1 "a" 1 _ hring).2.2,
    ((registered_by_place expectingTwo).2 rfl [("a", 1), ("a", 1)]).1⟩

/-- The addresses of two replicas meet in one place: both are welcomed, and only the first is
there. -/
theorem welcomed_and_missing :
    (expectingTwo.enroll [("Aa", 1), ("BB", 1)]).1 = [("Aa", 1), ("BB", 1)] ∧
      (expectingTwo.enroll [("Aa", 1), ("BB", 1)]).2.ring.members = [.atAddress "Aa" 1] ∧
      ∀ x ∈ (expectingTwo.enroll [("Aa", 1), ("BB", 1)]).2.ring.members,
        (x.host, x.port) ≠ ("BB", 1) := by
  decide +kernel

end Coordinator

end RingStore
