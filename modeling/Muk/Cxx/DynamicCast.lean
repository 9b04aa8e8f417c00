import Muk.Lib.ByteMemory
import Mathlib.Logic.Relation

/-!
# Dynamic casts

`__dynamic_cast` goes from an object to the most derived one in which it lies, and searches the
type infos of that one, base after base, for the class asked for. It neither looks at the
object it came from again nor at which bases are public. So it returns the first subobject
of that class, and this is what the language asks for where all bases are public and there is
no more than one such subobject.
-/

namespace Muk

mutual

/-- `__class_type_info`, `__si_class_type_info` and `__vmi_class_type_info`, each by its address. -/
inductive ClassInfo where
  | cls (addr : Word)
  | si (addr : Word) (baseType : ClassInfo)
  | vmi (addr : Word) (bases : BaseInfos)

/-- `__base_info`: the bases in their order, each with its `__offset_flags`. -/
inductive BaseInfos where
  | nil
  | cons (baseType : ClassInfo) (offsetFlags : Word) (bases : BaseInfos)

end

namespace ClassInfo

/-- The address of a type info, by which it is compared. -/
def addr : ClassInfo → Word
  | cls addr => addr
  | si addr _ => addr
  | vmi addr _ => addr

end ClassInfo

/-- `__base_class_type_info::offset` -/
def baseOffset (offsetFlags : Word) : Word := offsetFlags.sshiftRight 8

/-- `__base_class_type_info::isPublic` -/
def isPublic (offsetFlags : Word) : Bool := offsetFlags.getLsbD 1

/-- `__base_class_type_info::isVirtual` -/
def isVirtual (offsetFlags : Word) : Bool := offsetFlags.getLsbD 0

/-- Where a base lies in the object at an address. The offset of a virtual base is in the vtable
of the object. -/
def castToBase (m : Mem) (offsetFlags obj : Word) : Word :=
  let offset := baseOffset offsetFlags
  let offset := if isVirtual offsetFlags then load32 m (load32 m obj + offset) else offset
  obj + offset

mutual

/-- `__do_upcast`: the adjusted pointer, if it returns true. -/
def ClassInfo.doUpcast (m : Mem) (target : Word) : ClassInfo → Word → Option Word
  | .cls addr, obj => if addr = target then some obj else none
  | .si addr baseType, obj =>
    if addr = target then some obj else baseType.doUpcast m target obj
  | .vmi addr bases, obj => if addr = target then some obj else bases.upcastLoop m target obj

/-- The loop of `__vmi_class_type_info::__do_upcast`. -/
def BaseInfos.upcastLoop (m : Mem) (target : Word) : BaseInfos → Word → Option Word
  | .nil, _ => none
  | .cons baseType offsetFlags bases, obj =>
    let cast := castToBase m offsetFlags obj
    if baseType.addr = target then some cast
    else match baseType.doUpcast m target cast with
      | some cast => some cast
      | none => bases.upcastLoop m target obj

end

/-- `cast_to`. A null pointer is 0. -/
def ClassInfo.castTo (m : Mem) (other : Word) : ClassInfo → Word → Word
  | .cls addr, obj => if addr = other then obj else 0
  | .si addr baseType, obj => if addr = other then obj else baseType.castTo m other obj
  | .vmi addr bases, obj => ((ClassInfo.vmi addr bases).doUpcast m other obj).getD 0

/-- `__dynamic_cast`, with the type infos by their addresses. The `vtable_header` before a vtable
holds the offset of the most derived object and the address of its type info. -/
def dynamicCast (m : Mem) (typeInfo : Word → ClassInfo) (sub dst : Word) : Word :=
  let vtableLocation := load32 m sub
  let header := vtableLocation - 8
  let leaf := sub + load32 m header
  (typeInfo (load32 m (header + 4))).castTo m dst leaf

/-! ## Subobjects -/

/-- An object, or a subobject: its class and its address. -/
abbrev CxxObject := ClassInfo × Word

mutual

/-- An object with its subobjects, each before its own ones, in the order of the bases. -/
def ClassInfo.subobjects (m : Mem) : ClassInfo → Word → List CxxObject
  | .cls addr, obj => [(.cls addr, obj)]
  | .si addr baseType, obj => (.si addr baseType, obj) :: baseType.subobjects m obj
  | .vmi addr bases, obj => (.vmi addr bases, obj) :: bases.subobjects m obj

/-- The subobjects that an object has from these bases. -/
def BaseInfos.subobjects (m : Mem) : BaseInfos → Word → List CxxObject
  | .nil, _ => []
  | .cons baseType offsetFlags bases, obj =>
    baseType.subobjects m (castToBase m offsetFlags obj) ++ bases.subobjects m obj

end

/-- The bases of a class, with their flags. -/
def BaseInfos.toList : BaseInfos → List (ClassInfo × Word)
  | .nil => []
  | .cons baseType offsetFlags bases => (baseType, offsetFlags) :: bases.toList

/-- The second object is a direct base of the first one, with flags that are accessible. The base
of an `__si_class_type_info` is public, and lies at the same address. -/
inductive DirectBase (m : Mem) (accessible : Word → Prop) : CxxObject → CxxObject → Prop
  | si (addr : Word) (baseType : ClassInfo) (obj : Word) :
      DirectBase m accessible (.si addr baseType, obj) (baseType, obj)
  | vmi (addr : Word) {bases : BaseInfos} {baseType : ClassInfo} {offsetFlags : Word} (obj : Word) :
      (baseType, offsetFlags) ∈ bases.toList → accessible offsetFlags →
      DirectBase m accessible (.vmi addr bases, obj)
        (baseType, castToBase m offsetFlags obj)

/-- The second object is the first one or one of its bases. -/
abbrev HasSubobject (m : Mem) : CxxObject → CxxObject → Prop :=
  Relation.ReflTransGen (DirectBase m fun _ => True)

/-- The same, through public bases only. -/
abbrev HasPublicBase (m : Mem) : CxxObject → CxxObject → Prop :=
  Relation.ReflTransGen (DirectBase m fun offsetFlags => isPublic offsetFlags)

/-! ## What the language asks for -/

/-- An object of the class asked for that lies in the most derived object. -/
def IsTarget (m : Mem) (leaf : CxxObject) (dst : Word) (t : CxxObject) : Prop :=
  HasSubobject m leaf t ∧ t.1.addr = dst

/-- The object from which a cast starts is a public base of exactly one object of the class asked
for. -/
def DownTo (m : Mem) (leaf sub : CxxObject) (dst : Word) (t : CxxObject) : Prop :=
  IsTarget m leaf dst t ∧ HasPublicBase m t sub ∧
    ∀ t', IsTarget m leaf dst t' → HasSubobject m t' sub → t' = t

/-- The object from which a cast starts is a public base of the most derived object, and that has
exactly one base of the class asked for, which is public. -/
def Across (m : Mem) (leaf sub : CxxObject) (dst : Word) (t : CxxObject) : Prop :=
  HasPublicBase m leaf sub ∧ HasPublicBase m leaf t ∧ t.1.addr = dst ∧
    ∀ t', IsTarget m leaf dst t' → t' = t

/-- The result of a cast: a derived object, else a base of the most derived one, else null. -/
def CastResult (m : Mem) (leaf sub : CxxObject) (dst result : Word) : Prop :=
  (∃ t, DownTo m leaf sub dst t ∧ result = t.2) ∨
    (¬ (∃ t, DownTo m leaf sub dst t) ∧ ∃ t, Across m leaf sub dst t ∧ result = t.2) ∨
    (¬ (∃ t, DownTo m leaf sub dst t) ∧ ¬ (∃ t, Across m leaf sub dst t) ∧ result = 0)

/-! ## The search -/

variable {m : Mem} {target obj : Word}

/-- The subobjects of an object start with the object itself. -/
theorem ClassInfo.subobjects_head (c : ClassInfo) (obj : Word) :
    ∃ more, c.subobjects m obj = (c, obj) :: more := by
  cases c with
  | cls addr => exact ⟨[], rfl⟩
  | si addr baseType => exact ⟨_, rfl⟩
  | vmi addr bases => exact ⟨_, rfl⟩

/-- The address of the first subobject of a class. -/
def firstOf (target : Word) (objects : List CxxObject) : Option Word :=
  (objects.find? fun s => s.1.addr = target).map Prod.snd

/-- The first object of a class is the head if it has the class, and else that of the rest. -/
theorem firstOf_cons (target : Word) (s : CxxObject) (objects : List CxxObject) :
    firstOf target (s :: objects) =
      if s.1.addr = target then some s.2 else firstOf target objects := by
  rw [firstOf, List.find?_cons]
  split_ifs with h
  · simp only [h, decide_true, Option.map_some]
  · simp only [h, decide_false, firstOf]

/-- The first object of a class in two lists is that of the first list, if it has one. -/
theorem firstOf_append (target : Word) (objects objects' : List CxxObject) :
    firstOf target (objects ++ objects') =
      (firstOf target objects).or (firstOf target objects') := by
  rw [firstOf, List.find?_append, firstOf, firstOf]
  cases objects.find? fun s => s.1.addr = target <;> rfl

mutual

/-- An upcast finds the first subobject of its target. -/
theorem ClassInfo.doUpcast_eq (c : ClassInfo) (obj : Word) :
    c.doUpcast m target obj = firstOf target (c.subobjects m obj) := by
  cases c with
  | cls addr =>
    rw [ClassInfo.doUpcast, ClassInfo.subobjects, firstOf_cons]
    rfl
  | si addr baseType =>
    rw [ClassInfo.doUpcast, ClassInfo.subobjects, firstOf_cons, baseType.doUpcast_eq]
    rfl
  | vmi addr bases =>
    rw [ClassInfo.doUpcast, ClassInfo.subobjects, firstOf_cons, bases.upcastLoop_eq]
    rfl

/-- The loop over the bases finds what a search through all their subobjects finds. -/
theorem BaseInfos.upcastLoop_eq (bases : BaseInfos) (obj : Word) :
    bases.upcastLoop m target obj = firstOf target (bases.subobjects m obj) := by
  cases bases with
  | nil => rfl
  | cons baseType offsetFlags bases =>
    rw [BaseInfos.upcastLoop, BaseInfos.subobjects, firstOf_append, baseType.doUpcast_eq,
      bases.upcastLoop_eq]
    obtain ⟨more, hmore⟩ := baseType.subobjects_head (m := m) (castToBase m offsetFlags obj)
    by_cases haddr : baseType.addr = target
    · simp only [hmore, firstOf_cons, haddr, if_true, Option.some_or]
    · simp only [if_neg haddr]
      cases firstOf target (baseType.subobjects m (castToBase m offsetFlags obj)) <;> rfl

end

/-- `cast_to` finds the first subobject, for each kind of type info. -/
theorem ClassInfo.castTo_eq (c : ClassInfo) (other obj : Word) :
    c.castTo m other obj = (firstOf other (c.subobjects m obj)).getD 0 := by
  match c with
  | .cls addr =>
    rw [ClassInfo.castTo, ClassInfo.subobjects, firstOf_cons]
    by_cases h : addr = other
    · rw [if_pos h, if_pos (show (ClassInfo.cls addr).addr = other from h), Option.getD_some]
    · rw [if_neg h, if_neg (show ¬ (ClassInfo.cls addr).addr = other from h)]
      rfl
  | .si addr baseType =>
    rw [ClassInfo.castTo, ClassInfo.subobjects, firstOf_cons, baseType.castTo_eq]
    by_cases h : addr = other
    · rw [if_pos h, if_pos (show (ClassInfo.si addr baseType).addr = other from h),
        Option.getD_some]
    · rw [if_neg h, if_neg (show ¬ (ClassInfo.si addr baseType).addr = other from h)]
  | .vmi addr bases => rw [ClassInfo.castTo, ClassInfo.doUpcast_eq]

/-! ## The subobjects that are listed -/

/-- A class without bases has no subobject but itself. -/
theorem hasSubobject_cls {addr : Word} {s : CxxObject} :
    HasSubobject m (.cls addr, obj) s ↔ s = (.cls addr, obj) := by
  constructor
  · intro h
    rcases h.cases_head with h | ⟨t, ht, -⟩
    · exact h.symm
    · cases ht
  · rintro rfl
    exact .refl

/-- The subobjects of a class with one base are itself and those of the base, at the same
address. -/
theorem hasSubobject_si {addr : Word} {baseType : ClassInfo} {s : CxxObject} :
    HasSubobject m (.si addr baseType, obj) s ↔
      s = (.si addr baseType, obj) ∨ HasSubobject m (baseType, obj) s := by
  constructor
  · intro h
    rcases h.cases_head with h | ⟨t, ht, hts⟩
    · exact .inl h.symm
    · cases ht
      exact .inr hts
  · rintro (rfl | h)
    · exact .refl
    · exact .head (.si ..) h

/-- The subobjects of a class with several bases are itself and those of each base, where the base
is placed. -/
theorem hasSubobject_vmi {addr : Word} {bases : BaseInfos} {s : CxxObject} :
    HasSubobject m (.vmi addr bases, obj) s ↔ s = (.vmi addr bases, obj) ∨
      ∃ b ∈ bases.toList, HasSubobject m (b.1, castToBase m b.2 obj) s := by
  constructor
  · intro h
    rcases h.cases_head with h | ⟨t, ht, hts⟩
    · exact .inl h.symm
    · cases ht with
      | vmi _ _ hmem _ => exact .inr ⟨_, hmem, hts⟩
  · rintro (rfl | ⟨b, hmem, h⟩)
    · exact .refl
    · exact .head (.vmi _ _ hmem trivial) h

mutual

/-- The list of subobjects is exact: a subobject is listed if and only if the hierarchy gives it to
the object. -/
theorem ClassInfo.mem_subobjects (c : ClassInfo) (obj : Word) {s : CxxObject} :
    s ∈ c.subobjects m obj ↔ HasSubobject m (c, obj) s := by
  cases c with
  | cls addr => rw [ClassInfo.subobjects, List.mem_singleton, hasSubobject_cls]
  | si addr baseType =>
    rw [ClassInfo.subobjects, List.mem_cons, hasSubobject_si, baseType.mem_subobjects]
  | vmi addr bases =>
    rw [ClassInfo.subobjects, List.mem_cons, hasSubobject_vmi, bases.mem_subobjects]

/-- The subobjects that are listed for some bases are those that one of the bases has. -/
theorem BaseInfos.mem_subobjects (bases : BaseInfos) (obj : Word) {s : CxxObject} :
    s ∈ bases.subobjects m obj ↔
      ∃ b ∈ bases.toList, HasSubobject m (b.1, castToBase m b.2 obj) s := by
  cases bases with
  | nil => simp [BaseInfos.subobjects, BaseInfos.toList]
  | cons baseType offsetFlags bases =>
    rw [BaseInfos.subobjects, List.mem_append, baseType.mem_subobjects, bases.mem_subobjects,
      BaseInfos.toList]
    simp only [List.mem_cons, exists_eq_or_imp]

end

/-! ## The result -/

variable {leaf sub : CxxObject} {dst : Word}

/-- The first target, or null without one. -/
theorem castTo_cases (leaf : CxxObject) (dst : Word) :
    (∃ t, IsTarget m leaf dst t ∧ leaf.1.castTo m dst leaf.2 = t.2) ∨
      (∀ t, ¬ IsTarget m leaf dst t) ∧ leaf.1.castTo m dst leaf.2 = 0 := by
  rw [ClassInfo.castTo_eq, firstOf]
  cases hfind : (leaf.1.subobjects m leaf.2).find? fun s => s.1.addr = dst with
  | none =>
    refine .inr ⟨fun t ht => ?_, rfl⟩
    have hnot := List.find?_eq_none.mp hfind t ((ClassInfo.mem_subobjects _ _).mpr ht.1)
    exact hnot (decide_eq_true ht.2)
  | some t =>
    have hmem := (ClassInfo.mem_subobjects _ _).mp (List.mem_of_find?_eq_some hfind)
    exact .inl ⟨t, ⟨hmem, of_decide_eq_true (List.find?_some hfind :)⟩, rfl⟩

mutual

/-- All bases of a class and of its bases are public. -/
def ClassInfo.allPublic : ClassInfo → Bool
  | .cls _ => true
  | .si _ baseType => baseType.allPublic
  | .vmi _ bases => bases.allPublic

def BaseInfos.allPublic : BaseInfos → Bool
  | .nil => true
  | .cons baseType offsetFlags bases =>
    isPublic offsetFlags && baseType.allPublic && bases.allPublic

end

/-- If all bases are public throughout, each of them is public and public throughout. -/
theorem BaseInfos.allPublic_mem {bases : BaseInfos} (h : bases.allPublic = true)
    {b : ClassInfo × Word} (hb : b ∈ bases.toList) :
    isPublic b.2 = true ∧ b.1.allPublic = true := by
  match bases with
  | .nil => cases hb
  | .cons baseType offsetFlags bases =>
    rw [BaseInfos.allPublic, Bool.and_eq_true, Bool.and_eq_true] at h
    rw [BaseInfos.toList, List.mem_cons] at hb
    rcases hb with rfl | hb
    · exact h.1
    · exact BaseInfos.allPublic_mem h.2 hb

/-- With public bases only, each subobject is a public base. -/
theorem hasPublicBase_of {s t : CxxObject} (hpublic : s.1.allPublic = true)
    (h : HasSubobject m s t) : HasPublicBase m s t ∧ t.1.allPublic = true := by
  induction h with
  | refl => exact ⟨.refl, hpublic⟩
  | tail _ hstep ih =>
    obtain ⟨hbase, hmore⟩ := ih
    cases hstep with
    | si => exact ⟨hbase.tail (.si ..), hmore⟩
    | vmi _ _ hmem _ =>
      obtain ⟨hflags, hnext⟩ := BaseInfos.allPublic_mem hmore hmem
      exact ⟨hbase.tail (.vmi _ _ hmem hflags), hnext⟩

/-- A public base of an object is one of its subobjects. -/
theorem HasPublicBase.hasSubobject {s t : CxxObject} (h : HasPublicBase m s t) :
    HasSubobject m s t := by
  refine Relation.ReflTransGen.mono (fun _ _ hstep => ?_) _ _ h
  cases hstep with
  | si => exact .si ..
  | vmi _ _ hmem _ => exact .vmi _ _ hmem trivial

/-- With public bases and one target at most, `cast_to` returns what the language asks for. -/
theorem castTo_castResult (hsub : HasSubobject m leaf sub) (hpublic : leaf.1.allPublic = true)
    (hone : ∀ t t', IsTarget m leaf dst t → IsTarget m leaf dst t' → t = t') :
    CastResult m leaf sub dst (leaf.1.castTo m dst leaf.2) := by
  rcases castTo_cases (m := m) leaf dst with ⟨t, ht, hcast⟩ | ⟨hnone, hcast⟩
  · by_cases hdown : ∃ t, DownTo m leaf sub dst t
    · obtain ⟨t', ht'⟩ := hdown
      refine .inl ⟨t', ht', ?_⟩
      rw [hcast, hone t t' ht ht'.1]
    · have hacross : Across m leaf sub dst t :=
        ⟨(hasPublicBase_of hpublic hsub).1, (hasPublicBase_of hpublic ht.1).1, ht.2,
          fun t' ht' => hone t' t ht' ht⟩
      exact .inr (.inl ⟨hdown, t, hacross, hcast⟩)
  · refine .inr (.inr ⟨?_, ?_, hcast⟩)
    · rintro ⟨t, ht, -⟩
      exact hnone t ht
    · rintro ⟨t, -, ht, haddr, -⟩
      exact hnone t ⟨ht.hasSubobject, haddr⟩

/-- The header before the vtable of a subobject leads to the most derived object. -/
structure LeadsTo (m : Mem) (typeInfo : Word → ClassInfo) (sub leaf : CxxObject) : Prop where
  offset : sub.2 + load32 m (load32 m sub.2 - 8) = leaf.2
  type : typeInfo (load32 m (load32 m sub.2 - 8 + 4)) = leaf.1
  hasSubobject : HasSubobject m leaf sub

/-- **A cast finds the first subobject of its class** in the most derived object, in the order in
which the bases are declared, and returns null only if there is none. Where all bases are public
and there is one such subobject at most, this is what the language asks for. -/
theorem dynamicCast_spec {typeInfo : Word → ClassInfo} (h : LeadsTo m typeInfo sub leaf)
    (dst : Word) :
    dynamicCast m typeInfo sub.2 dst = (firstOf dst (leaf.1.subobjects m leaf.2)).getD 0 ∧
      (∀ t, t ∈ leaf.1.subobjects m leaf.2 ↔ HasSubobject m leaf t) ∧
      (leaf.1.allPublic = true →
        (∀ t t', IsTarget m leaf dst t → IsTarget m leaf dst t' → t = t') →
        CastResult m leaf sub dst (dynamicCast m typeInfo sub.2 dst)) := by
  have hcast : dynamicCast m typeInfo sub.2 dst = leaf.1.castTo m dst leaf.2 := by
    simp only [dynamicCast, h.offset, h.type]
  rw [hcast]
  exact ⟨leaf.1.castTo_eq dst leaf.2, fun t => leaf.1.mem_subobjects leaf.2,
    castTo_castResult h.hasSubobject⟩

/-- A class with two public bases, the second one of them 4 bytes behind the first one. -/
def twoBases : ClassInfo :=
  .vmi 0x300 (.cons (.cls 0x100) 0x002 (.cons (.cls 0x200) 0x402 .nil))

/-- An object of this class at 0x1000. The vtable of its second base is at 0x2008. -/
def twoBasesMemory : Mem :=
  store32 (store32 (store32 (fun _ => 0) 0x1004 0x2008) 0x2000 (-4)) 0x2004 0x300

/-- From the second base to the first one. -/
theorem dynamicCast_spec_across :
    dynamicCast twoBasesMemory (fun _ => twoBases) 0x1004 0x100 = 0x1000 ∧
      CastResult twoBasesMemory (twoBases, 0x1000) (.cls 0x200, 0x1004) 0x100
        (dynamicCast twoBasesMemory (fun _ => twoBases) 0x1004 0x100) := by
  have hlist : twoBases.subobjects twoBasesMemory 0x1000 =
      [(twoBases, 0x1000), (.cls 0x100, 0x1000), (.cls 0x200, 0x1004)] := rfl
  have hsub : HasSubobject twoBasesMemory (twoBases, 0x1000) (.cls 0x200, 0x1004) := by
    rw [← ClassInfo.mem_subobjects, hlist]
    exact List.mem_cons_of_mem _ (List.mem_cons_of_mem _ List.mem_cons_self)
  have htarget : ∀ t, IsTarget twoBasesMemory (twoBases, 0x1000) 0x100 t →
      t = (.cls 0x100, 0x1000) := by
    rintro t ⟨ht, haddr⟩
    rw [← ClassInfo.mem_subobjects, hlist] at ht
    simp only [List.mem_cons, List.not_mem_nil, or_false] at ht
    rcases ht with rfl | rfl | rfl
    · exact absurd haddr (by decide)
    · rfl
    · exact absurd haddr (by decide)
  have hheader : LeadsTo twoBasesMemory (fun _ => twoBases) (.cls 0x200, 0x1004)
      (twoBases, 0x1000) := ⟨by decide, rfl, hsub⟩
  obtain ⟨hfirst, -, hresult⟩ := dynamicCast_spec hheader 0x100
  refine ⟨hfirst.trans ?_,
    hresult rfl fun t t' ht ht' => (htarget t ht).trans (htarget t' ht').symm⟩
  rw [hlist]
  rfl

end Muk
