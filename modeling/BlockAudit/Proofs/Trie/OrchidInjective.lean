import BlockAudit.Proofs.Trie.Injective
import BlockAudit.Trie.Orchid

/-!
Messages of the older layout tell nodes apart as well. They keep 16 bits of the length of a path,
but nodes whose paths differ by so much have messages of different lengths.
-/
namespace BlockAudit.Trie.Orchid

/-- The bytes for one side of a node. -/
def linkBytes (link : Option Hash) : Bytes :=
  link.toList.flatMap FixedBytes.toBytes

/-- Which sides there are, as a number. -/
def presence (left right : Option Hash) : Nat :=
  (if left.isSome then 1 else 0) + (if right.isSome then 2 else 0)

theorem messageWith_eq (node : Node) (left right : Option Hash) :
    messageWith node left right =
      arity :: (if node.isLong then longValueFlag else 0) ::
        (bigEndianFixed 2 (presence left right) ++ (bigEndianFixed 2 node.path.length ++
          (node.path.pack ++ (linkBytes left ++ (linkBytes right ++ node.valueLink))))) := by
  unfold messageWith linkBytes presence Label.valueLink
  cases node.valueHash <;>
    simp only [List.flatMap_append, List.append_assoc, List.cons_append, List.nil_append]

theorem bigEndianFixed_append_inj {size m n : Nat} {x y : Bytes}
    (h : bigEndianFixed size m ++ x = bigEndianFixed size n ++ y) :
    m % 256 ^ size = n % 256 ^ size ∧ x = y := by
  obtain ⟨hdigits, hxy⟩ := List.append_inj h (by simp)
  have hvalue := congrArg ofBigEndian hdigits
  rw [ofBigEndian_bigEndianFixed, ofBigEndian_bigEndianFixed] at hvalue
  exact ⟨hvalue, hxy⟩

theorem presence_inj {l r l' r' : Option Hash}
    (h : presence l r % 256 ^ 2 = presence l' r' % 256 ^ 2) :
    l.isSome = l'.isSome ∧ r.isSome = r'.isSome := by
  unfold presence at h
  cases l <;> cases r <;> cases l' <;> cases r' <;> simp_all

theorem length_linkBytes (link : Option Hash) :
    (linkBytes link).length = 32 * link.isSome.toNat := by
  cases link with
  | none => rfl
  | some hash => simp [linkBytes, hash.length_toBytes]

theorem length_linkBytes_le (link : Option Hash) : (linkBytes link).length ≤ 32 := by
  have hle := link.isSome.toNat_le
  rw [length_linkBytes]
  omega

theorem linkBytes_append_inj {e f : Option Hash} {x y : Bytes} (hsome : e.isSome = f.isSome)
    (h : linkBytes e ++ x = linkBytes f ++ y) : e = f ∧ x = y := by
  cases e with
  | none =>
    cases f with
    | none => exact ⟨rfl, h⟩
    | some f => cases hsome
  | some e =>
    cases f with
    | none => cases hsome
    | some f =>
      simp only [linkBytes, Option.toList_some, List.flatMap_singleton] at h
      obtain ⟨rfl, hxy⟩ := FixedBytes.append_inj h
      exact ⟨rfl, hxy⟩

/-- Equal messages come from nodes with the same path, value and hashes of children. -/
theorem messageWith_inj {m n : Node} {l r l' r' : Option Hash} (hm : m.valueLink.length ≤ 32)
    (hn : n.valueLink.length ≤ 32) (h : messageWith m l r = messageWith n l' r') :
    m.path = n.path ∧ l = l' ∧ r = r' ∧ m.isLong = n.isLong ∧ m.valueLink = n.valueLink := by
  rw [messageWith_eq, messageWith_eq] at h
  obtain ⟨hflag, hpresence⟩ := List.cons.inj (List.cons.inj h).2
  have hlong : m.isLong = n.isLong := by
    cases hm : m.isLong <;> cases hn : n.isLong
    · rfl
    · rw [hm, hn] at hflag
      exact absurd hflag (by decide)
    · rw [hm, hn] at hflag
      exact absurd hflag (by decide)
    · rfl
  obtain ⟨hpresence, hlength⟩ := bigEndianFixed_append_inj hpresence
  obtain ⟨hl, hr⟩ := presence_inj hpresence
  obtain ⟨hlength, hpack⟩ := bigEndianFixed_append_inj hlength
  have hlen : m.path.length = n.path.length := by
    have htotal := congrArg List.length hpack
    have hl := length_linkBytes_le l
    have hr := length_linkBytes_le r
    have hl' := length_linkBytes_le l'
    have hr' := length_linkBytes_le r'
    simp only [List.length_append, BitPath.length_pack, BitPath.packedLength] at htotal
    omega
  obtain ⟨hpath, hleft⟩ := BitPath.pack_append_inj hlen hpack
  obtain ⟨hleft, hright⟩ := linkBytes_append_inj hl hleft
  obtain ⟨hright, hvalue⟩ := linkBytes_append_inj hr hright
  exact ⟨hpath, hleft, hright, hlong, hvalue⟩

end BlockAudit.Trie.Orchid
