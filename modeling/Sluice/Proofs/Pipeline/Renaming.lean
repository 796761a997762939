import Sluice.Proofs.Pipeline.Acyclic
import Sluice.Proofs.Pipeline.Ends

/-! New names for the members of a pipeline. Members that are entered one after the other without
ids of their own get their tasks' names with numbers, which no two of them share. -/

namespace Sluice

def Link.rename (f : String → String) (l : Link) : Link :=
  { l with source := f l.source, target := f l.target }

def Connector.rename (f : String → String) (c : Connector) : Connector :=
  { c with stage := f c.stage }

@[simp] theorem Link.endOn_rename (f : String → String) (l : Link) (side : Side) :
    (l.rename f).endOn side = f (l.endOn side) := by
  cases side <;> rfl

@[simp] theorem Link.slotOn_rename (f : String → String) (l : Link) (side : Side) :
    (l.rename f).slotOn side = l.slotOn side := by
  cases side <;> rfl

theorem Link.eq_of_rename {f : String → String} {l k : Link}
    (inj : ∀ side, f (l.endOn side) = f (k.endOn side) → l.endOn side = k.endOn side)
    (h : l.rename f = k.rename f) : l = k := by
  refine eq_of_placeOn fun side => ?_
  have hend := inj side (by simpa using congrArg (fun l => l.endOn side) h)
  have hslot : l.slotOn side = k.slotOn side := by
    simpa using congrArg (fun l => l.slotOn side) h
  rw [placeOn, placeOn, hend, hslot]

theorem Connector.rename_ofSlots (f : String → String) (stage : String) (side : Side)
    (slots : List Slot) :
    (ofSlots stage side slots).map (rename f) = ofSlots (f stage) side slots := by
  simp [ofSlots, rename, Function.comp_def]

theorem Acyclic.rename {links : List Link} {keys : List String} {f : String → String}
    (h : Acyclic links) (ends : ∀ l ∈ links, ∀ side, l.endOn side ∈ keys)
    (inj : ∀ a ∈ keys, ∀ b ∈ keys, f a = f b → a = b) : Acyclic (links.map (Link.rename f)) := by
  have back : ∀ x y, Relation.TransGen (Leads (links.map (Link.rename f))) x y →
      ∃ a ∈ keys, ∃ b ∈ keys, f a = x ∧ f b = y ∧ Relation.TransGen (Leads links) a b := by
    intro x y hxy
    induction hxy with
    | single hl =>
      obtain ⟨k, hk, rfl, rfl⟩ := hl
      obtain ⟨l, hl, rfl⟩ := List.mem_map.1 hk
      exact ⟨l.source, ends l hl .output, l.target, ends l hl .input, rfl, rfl,
        .single ⟨l, hl, rfl, rfl⟩⟩
    | tail _ hl ih =>
      obtain ⟨k, hk, hsource, rfl⟩ := hl
      obtain ⟨l, hl, rfl⟩ := List.mem_map.1 hk
      obtain ⟨a, ha, b, hb, rfl, rfl, hab⟩ := ih
      obtain rfl : l.source = b := inj _ (ends l hl .output) _ hb hsource
      exact ⟨a, ha, l.target, ends l hl .input, rfl, rfl, hab.tail ⟨l, hl, rfl, rfl⟩⟩
  intro key hkey
  obtain ⟨a, ha, b, hb, rfl, hsame, hab⟩ := back key key hkey
  obtain rfl : b = a := inj _ hb _ ha hsame
  exact h b hab

namespace Pipeline

variable {p : Pipeline}

theorem eq_of_append_underscore {xs ys ds es : List Char} (hd : '_' ∉ ds) (he : '_' ∉ es)
    (h : xs ++ '_' :: ds = ys ++ '_' :: es) : ds = es := by
  have last : ∀ zs fs : List Char, '_' ∉ fs →
      (zs ++ '_' :: fs).reverse.takeWhile (fun c => c != '_') = fs.reverse := by
    intro zs fs hf
    rw [List.reverse_append, List.reverse_cons, List.append_assoc,
      List.takeWhile_append_of_pos fun c hc => ?_]
    · simp
    · have : c ≠ '_' := by
        rintro rfl
        exact hf (List.mem_reverse.1 hc)
      simpa using this
  have := last xs ds hd
  rw [h, last ys es he] at this
  exact (List.reverse_injective this).symm

theorem number_of_numberedId {task other : String} {m n : Nat}
    (h : numberedId task m = numberedId other n) : m = n := by
  have := congrArg String.toList h
  rw [toList_numberedId, toList_numberedId] at this
  refine Text.toDigits_injective (eq_of_append_underscore ?_ ?_ this)
  · exact fun hmem => Nat.underscore_not_in_toDigits hmem
  · exact fun hmem => Nat.underscore_not_in_toDigits hmem

theorem isVoid_numberedId (task : String) (n : Nat) :
    Text.isVoid (numberedId task n) = false := by
  have hmem : '_' ∈ (numberedId task n).toList := by simp [toList_numberedId]
  have hblank : Text.isBlank '_' = false := by decide
  rw [Bool.eq_false_iff]
  intro h
  have := List.all_eq_true.1 h '_' hmem
  rw [hblank] at this
  cases this

theorem exists_free (p : Pipeline) (task : String) : ∃ i,
    (List.range (p.size + 1)).find? (fun i => !p.contains (numberedId task (p.size + i))) =
      some i := by
  rw [← Option.isSome_iff_exists, ← Option.ne_none_iff_isSome]
  intro hfind
  have taken : (List.range (p.size + 1)).map (fun i => numberedId task (p.size + i)) ⊆
      p.keys := by
    intro key hkey
    obtain ⟨i, hi, rfl⟩ := List.mem_map.1 hkey
    have := List.find?_eq_none.1 hfind i hi
    rwa [Bool.not_eq_true', Bool.not_eq_false, contains_iff] at this
  have nodup : ((List.range (p.size + 1)).map fun i => numberedId task (p.size + i)).Nodup := by
    refine List.nodup_range.map fun i j hij => ?_
    exact Nat.add_left_cancel (number_of_numberedId hij)
  have := (List.subperm_of_subset nodup taken).length_le
  rw [List.length_map, List.length_range, keys, List.length_map, size] at this
  omega

theorem freshId_not_mem (p : Pipeline) (task : String) : p.freshId task ∉ p.keys := by
  obtain ⟨i, hfind⟩ := p.exists_free task
  have free := List.find?_some hfind
  rw [Bool.not_eq_true', Bool.eq_false_iff, ne_eq, contains_iff] at free
  simpa [freshId, hfind] using free

theorem exists_add (p : Pipeline) {s : Stage} (h : s.id = none) :
    ∃ q, p.add s none = .ok (p.freshId s.task.name, q) := by
  obtain ⟨n, hn⟩ := p.exists_freshId s.task.name
  have entry : p.entryKey s none = p.freshId s.task.name := by simp only [entryKey, h]
  have free : p.contains (p.freshId s.task.name) = false := by
    rw [Bool.eq_false_iff, ne_eq, contains_iff]
    exact p.freshId_not_mem _
  have named : Stage.idOf (p.freshId s.task.name) = .ok (Text.trim (p.freshId s.task.name)) :=
    idOf_eq_ok.2 ⟨hn ▸ isVoid_numberedId _ _, rfl⟩
  simp only [add, entry, free, named]
  exact ⟨_, rfl⟩

theorem freshId_of_free {task : String} (h : numberedId task p.size ∉ p.keys) :
    p.freshId task = numberedId task p.size := by
  have hfree : (List.range (p.size + 1)).find? (fun i => !p.contains (numberedId task (p.size + i)))
      = some 0 := by
    have : p.contains (numberedId task p.size) = false := by
      rwa [Bool.eq_false_iff, ne_eq, contains_iff]
    rw [List.range_succ_eq_map, List.find?_cons_of_pos (by simpa using this)]
  simp [freshId, hfree]

def Numbered (p : Pipeline) : Prop :=
  ∀ n m, p.members[n]? = some m → m.key = numberedId m.task.name n

namespace Numbered

theorem keys_nodup (h : p.Numbered) : p.keys.Nodup := by
  rw [List.nodup_iff_getElem?_ne_getElem?]
  intro i j hij hj same
  rw [keys, List.length_map] at hj
  rw [keys, List.getElem?_map, List.getElem?_map, List.getElem?_eq_getElem hj,
    List.getElem?_eq_getElem (hij.trans hj), Option.map_some, Option.map_some,
    Option.some.injEq, h i _ (List.getElem?_eq_getElem (hij.trans hj)),
    h j _ (List.getElem?_eq_getElem hj)] at same
  exact hij.ne (number_of_numberedId same)

theorem next_free (h : p.Numbered) (task : String) : numberedId task p.size ∉ p.keys := by
  intro hkey
  obtain ⟨m, hm, same⟩ := List.mem_map.1 hkey
  obtain ⟨n, hn⟩ := List.getElem?_of_mem hm
  obtain rfl : n = p.size := number_of_numberedId ((h n m hn).symm.trans same)
  exact absurd (List.getElem?_eq_some_iff.1 hn).1 (Nat.lt_irrefl _)

end Numbered

def Renames (f : String → String) (order : List Member) : Prop :=
  ∀ e ∈ order.zipIdx, f e.1.id = numberedId e.1.task.name e.2

def newName (order : List Member) (id : String) : String :=
  match order.zipIdx.find? fun e => e.1.id = id with
  | some (m, n) => numberedId m.task.name n
  | none => id

theorem renames_newName {order : List Member} (h : (order.map Member.id).Nodup) :
    Renames (newName order) order := by
  intro e he
  have hids : (order.zipIdx.map fun e => e.1.id).Nodup := by
    have := congrArg (List.map Member.id) (List.zipIdx_map_fst 0 order)
    rw [List.map_map] at this
    exact this ▸ h
  cases hfind : order.zipIdx.find? fun o => o.1.id = e.1.id with
  | none =>
    have := List.find?_eq_none.1 hfind e he
    simp at this
  | some o =>
    have hid : o.1.id = e.1.id := by simpa using List.find?_some hfind
    have : o = e := List.inj_on_of_nodup_map hids (List.mem_of_find?_eq_some hfind) he hid
    subst this
    rw [newName, hfind]

namespace Renames

variable {f : String → String} {order more : List Member}

theorem of_append (h : Renames f (order ++ more)) : Renames f order := by
  intro e he
  refine h e ?_
  rw [List.zipIdx_append]
  exact List.mem_append_left _ he

theorem last {m : Member} (h : Renames f (order ++ [m])) :
    f m.id = numberedId m.task.name order.length := by
  refine h (m, order.length) ?_
  rw [List.zipIdx_append]
  simp

theorem inj (h : Renames f order) {a b : String} (ha : a ∈ order.map Member.id)
    (hb : b ∈ order.map Member.id) (hab : f a = f b) : a = b := by
  obtain ⟨m, hm, rfl⟩ := List.mem_map.1 ha
  obtain ⟨n, hn, rfl⟩ := List.mem_map.1 hb
  obtain ⟨i, hi⟩ := List.getElem?_of_mem hm
  obtain ⟨j, hj⟩ := List.getElem?_of_mem hn
  have him := h (m, i) (List.mem_zipIdx_iff_getElem?.2 hi)
  have hjn := h (n, j) (List.mem_zipIdx_iff_getElem?.2 hj)
  obtain rfl : i = j := number_of_numberedId (him.symm.trans (hab.trans hjn))
  rw [hi, Option.some.injEq] at hj
  rw [hj]

end Renames

end Pipeline

end Sluice
