/-
All children of an element, asked for at another time.

While the schema grows, the same question may get another answer, as far as one knows: other kinds
have entities by then, with other numbers, and a derivation that was too deep before may not be so
any more.  But which nodes are behind the relations of an element depends on the names of the
relations, and these are the same in all schemas in which the kind of the node has an entity.  So
what is asked of the schema is known beforehand: the entities of certain nodes, one by one.

From that it follows that an answer which was given is given again at any later time, that
what can be answered can be answered as well if more kinds have entities, in whatever order these
were derived, and that two answers are the same nodes.
-/
import TreeSchema.Proofs.Gathering
import TreeSchema.Proofs.Independence

namespace TreeSchema

/-! ### The relations of a kind -/

/-- A relation by its name and by how many values it has. -/
def Relation.key (r : Relation) : String × Multiplicity := (r.name, r.multiplicity)

/-- What of a feature does not depend on the schema that it is in. -/
def Feature.key (f : Feature) : String × Option Multiplicity :=
  (f.name, f.relation?.map Relation.multiplicity)

namespace Schema

/-- The names of the relations of an entity, each with how many values it has. -/
def relationKeys (s : Schema) (id : EntityId) : List (String × Multiplicity) :=
  (s.relations id).map Relation.key

theorem map_key_firstOfEachName {fs gs : List Feature}
    (h : fs.map Feature.key = gs.map Feature.key) :
    (firstOfEachName fs).map Feature.key = (firstOfEachName gs).map Feature.key := by
  induction fs generalizing gs with
  | nil =>
      rw [List.map_nil, eq_comm, List.map_eq_nil_iff] at h
      rw [h]
  | cons f fs ih =>
      cases gs with
      | nil => cases h
      | cons g gs =>
          rw [List.map_cons, List.map_cons, List.cons.injEq] at h
          obtain ⟨hkey, hrest⟩ := h
          have hname : f.name = g.name := congrArg Prod.fst hkey
          have hfilter : ∀ l : List Feature, (l.filter (·.name ≠ f.name)).map Feature.key =
              (l.map Feature.key).filter (·.1 ≠ f.name) := by
            intro l
            rw [List.filter_map]
            rfl
          rw [firstOfEachName, firstOfEachName, List.map_cons, List.map_cons, hkey, ← hname,
            hfilter, hfilter, ih hrest]

theorem Extends.kinds_subset {s s' : Schema} (h : s.Extends s') : s.kinds ⊆ s'.kinds := by
  intro kind hkind
  obtain ⟨id, hid⟩ := mem_kinds_iff.mp hkind
  exact mem_kinds_iff.mpr ⟨id, h.idOf? hid⟩

end Schema

/-- Entities of one kind have the same features, up to the entities that these name. -/
theorem Blueprint.Derives.map_key {b : Blueprint} {s t : Schema} {e f : Entity}
    (h : b.Derives s e) (h' : b.Derives t f) (hkind : e.kind = f.kind) :
    e.features.map Feature.key = f.features.map Feature.key := by
  obtain ⟨k, cs, hk, hds, hcs⟩ := h.features
  obtain ⟨k', cs', hk', hds', hcs'⟩ := h'.features
  rw [← hkind, hk, Option.some.injEq] at hk'
  subst hk'
  obtain rfl := hds.unique hds'
  have hrelations : ∀ {s : Schema} {id : EntityId} {ls : List Link} {rs : List Relation},
      List.Forall₂ (s.Realizes id) ls rs →
      (rs.map Feature.relation).map Feature.key =
        ls.map fun l => (l.name, some l.multiplicity) := by
    intro s id ls rs h
    induction h with
    | nil => rfl
    | cons hr _ ih =>
        rw [List.map_cons, List.map_cons, List.map_cons, ih, Feature.key, Feature.name,
          Feature.relation?, hr.name]
        simp [hr.multiplicity]
  unfold Entity.features
  rw [List.map_append, List.map_append, hrelations hcs.relations, hrelations hcs'.relations,
    hcs.properties, hcs'.properties]

namespace Finished

variable {b : Blueprint} {s t : Schema} {kind : String} {id id' : EntityId}

/-- In two schemas the entities of some kinds have the same features one after the other. -/
theorem map_key_features (hs : Finished b s) (ht : Finished b t) {kinds : List String}
    {ps qs : List EntityId} (hps : List.Forall₂ (fun k p => s.idOf? k = some p) kinds ps)
    (hqs : List.Forall₂ (fun k q => t.idOf? k = some q) kinds qs) :
    ((ps.filterMap s.entity?).flatMap Entity.features).map Feature.key =
      ((qs.filterMap t.entity?).flatMap Entity.features).map Feature.key := by
  induction hps generalizing qs with
  | nil =>
      cases hqs
      rfl
  | @cons k p kinds ps hp _ ih =>
      cases hqs with
      | @cons _ q _ qs hq hqs =>
          obtain ⟨e, he, hk⟩ := hs.consistent.idOf?_eq_some_iff.mp hp
          obtain ⟨f, hf, hk'⟩ := ht.consistent.idOf?_eq_some_iff.mp hq
          have hkey := (hs.derived he).map_key (ht.derived hf) (hk.trans hk'.symm)
          rw [List.filterMap_cons_some he, List.filterMap_cons_some hf, List.flatMap_cons,
            List.flatMap_cons, List.map_append, List.map_append, hkey, ih hqs]

/-- The relations of a kind have the same names in all schemas in which it has an entity. -/
theorem relationKeys_eq (hs : Finished b s) (ht : Finished b t) (hid : s.idOf? kind = some id)
    (hid' : t.idOf? kind = some id') : t.relationKeys id' = s.relationKeys id := by
  have hread : ∀ (s : Schema) (id : EntityId), s.relationKeys id =
      ((s.features id).map Feature.key).filterMap fun k => k.2.map fun m => (k.1, m) := by
    intro s id
    rw [Schema.relationKeys, Schema.relations, List.map_filterMap, List.filterMap_map]
    congr 1
    funext f
    cases f <;> rfl
  have hfeatures : (s.features id).map Feature.key = (t.features id').map Feature.key :=
    Schema.map_key_firstOfEachName <| map_key_features hs ht
      (hs.consistent.forall₂_ancestry hid) (ht.consistent.forall₂_ancestry hid')
  rw [hread, hread, hfeatures]

/-- What can be derived can be derived as well if more kinds have entities. -/
theorem entityId_of_subset (hs : Finished b s) (ht : Finished b t) (hsub : s.kinds ⊆ t.kinds)
    {s' : Schema} (h : b.entityId kind s = .ok id s') :
    ∃ id' t', b.entityId kind t = .ok id' t' ∧ s'.kinds ⊆ t'.kinds := by
  obtain ⟨hs', -, hid⟩ := (hs.ends_entityId kind).of_ok h
  have hbuildable := hs'.buildable hid
  have hfound := (b.ends_entityId_discover hbuildable hs.consistent).of_ok h
  have hmore := Blueprint.discover_union ht.closed_kinds hfound
  rw [Finset.union_eq_right.mpr hsub] at hmore
  have hends := b.ends_entityId_discover hbuildable ht.consistent
  cases hrun : b.entityId kind t with
  | ok id' t' =>
      have hkinds : s'.kinds ∪ t.kinds = t'.kinds :=
        Option.some.inj (hmore.symm.trans (hends.of_ok hrun))
      exact ⟨id', t', rfl, hkinds ▸ Finset.subset_union_left⟩
  | error err t' =>
      have hnone := (hends.of_error hrun).2
      rw [hmore] at hnone
      cases hnone

end Finished

/-! ### Children as nodes -/

section Runs

variable {ε σ α β γ κ : Type} {s s' : σ}

theorem run_map_congr {x y : EStateM ε σ α} (h : x s = y s) (f : α → β) :
    (f <$> x) s = (f <$> y) s := by
  show EStateM.map f x s = EStateM.map f y s
  unfold EStateM.map
  rw [h]

theorem run_mapM_append_eq_ok_iff {g : β → EStateM ε σ γ} {bs bs' : List β} {cs : List γ} :
    (bs ++ bs').mapM g s = .ok cs s' ↔ ∃ xs s₁ ys, bs.mapM g s = .ok xs s₁ ∧
      bs'.mapM g s₁ = .ok ys s' ∧ cs = xs ++ ys := by
  rw [List.mapM_append, run_bind_eq_ok_iff]
  refine exists_congr fun xs => exists_congr fun s₁ => ?_
  rw [run_bind_eq_ok_iff]
  constructor
  · rintro ⟨hxs, ys, s₂, hys, hcs⟩
    cases hcs
    exact ⟨ys, hxs, hys, rfl⟩
  · rintro ⟨ys, hxs, hys, rfl⟩
    exact ⟨hxs, ys, s', hys, rfl⟩

theorem run_mapM_cons_eq_ok_iff {g : β → EStateM ε σ γ} {b : β} {bs : List β} {cs : List γ} :
    (b :: bs).mapM g s = .ok cs s' ↔
      ∃ c s₁ ds, g b s = .ok c s₁ ∧ bs.mapM g s₁ = .ok ds s' ∧ cs = c :: ds := by
  rw [List.mapM_cons, run_bind_eq_ok_iff]
  refine exists_congr fun c => exists_congr fun s₁ => ?_
  rw [run_bind_eq_ok_iff]
  constructor
  · rintro ⟨hc, ds, s₂, hds, hcs⟩
    cases hcs
    exact ⟨ds, hc, hds, rfl⟩
  · rintro ⟨ds, hc, hds, rfl⟩
    exact ⟨hc, ds, s', hds, rfl⟩

/-- If each step asks first what can be said without the state, and then runs through what it was
told, then all that can be said may be asked first. -/
theorem flatMapM_eq_ok_iff {G : α → EStateM ε σ (List γ)} {F : κ → Except ε (List β)}
    {g : β → EStateM ε σ γ} (key : α → κ) {I : σ → Prop} {l : List α} {cs : List γ}
    (hstep : ∀ a ∈ l, ∀ s₁, I s₁ → ∀ xs s₂, G a s₁ = .ok xs s₂ ↔
      ∃ bs, F (key a) = .ok bs ∧ bs.mapM g s₁ = .ok xs s₂)
    (hkeep : ∀ a ∈ l, ∀ s₁ xs s₂, I s₁ → G a s₁ = .ok xs s₂ → I s₂) (hs : I s) :
    l.flatMapM G s = .ok cs s' ↔
      ∃ bs, (l.map key).flatMapM F = .ok bs ∧ bs.mapM g s = .ok cs s' := by
  induction l generalizing s cs with
  | nil =>
      constructor
      · intro h
        cases h
        exact ⟨[], rfl, rfl⟩
      · rintro ⟨bs, hbs, h⟩
        cases hbs
        exact h
  | cons a l ih =>
      have hrest : ∀ {s₁ cs}, I s₁ → (l.flatMapM G s₁ = .ok cs s' ↔
          ∃ bs, (l.map key).flatMapM F = .ok bs ∧ bs.mapM g s₁ = .ok cs s') :=
        ih (fun c hc => hstep c (List.mem_cons_of_mem _ hc))
          fun c hc => hkeep c (List.mem_cons_of_mem _ hc)
      rw [List.flatMapM_cons, List.map_cons, List.flatMapM_cons]
      constructor
      · intro h
        obtain ⟨xs, s₁, hxs, h⟩ := run_bind_eq_ok_iff.mp h
        obtain ⟨ys, s₂, hys, h⟩ := run_bind_eq_ok_iff.mp h
        cases h
        obtain ⟨bs, hbs, hmap⟩ := (hstep a List.mem_cons_self s hs xs s₁).mp hxs
        obtain ⟨bs', hbs', hmap'⟩ :=
          (hrest (hkeep a List.mem_cons_self s xs s₁ hs hxs)).mp hys
        refine ⟨bs ++ bs', ?_, run_mapM_append_eq_ok_iff.mpr ⟨xs, s₁, ys, hmap, hmap', rfl⟩⟩
        rw [hbs, hbs']
        rfl
      · rintro ⟨all, hall, hrun⟩
        obtain ⟨bs, hbs, h⟩ := bind_eq_ok_iff.mp hall
        obtain ⟨bs', hbs', h⟩ := bind_eq_ok_iff.mp h
        cases h
        obtain ⟨xs, s₁, ys, hmap, hmap', rfl⟩ := run_mapM_append_eq_ok_iff.mp hrun
        have hxs := (hstep a List.mem_cons_self s hs xs s₁).mpr ⟨bs, hbs, hmap⟩
        have hys := (hrest (hkeep a List.mem_cons_self s xs s₁ hs hxs)).mpr ⟨bs', hbs', hmap'⟩
        exact run_bind_eq_ok_iff.mpr ⟨xs, s₁, hxs, run_bind_eq_ok_iff.mpr ⟨ys, s', hys, rfl⟩⟩

end Runs

namespace View

variable {v : View} {s s' t : Schema} {e f : Element} {ds : List Element} {js : List NodeId}

/-- The node that a child of a relation is seen as, if it is kept. -/
def seenNodes (v : View) (e : Element) (relation : String) (c : Child) :
    Except Error (List NodeId) := do
  return (← v.blueprint.kept? v.tree (← v.relationNode e relation c)).toList

/-- The children behind a relation, which have to be held as it says. -/
def childrenBehind (v : View) (e : Element) (key : String × Multiplicity) :
    Except Error (List Child) :=
  if key.2.isSingle then Option.toList <$> v.fillingOne e key.1 else v.fillingMany e key.1

/-- The nodes that a relation leads to. -/
def nodesBehind (v : View) (e : Element) (key : String × Multiplicity) :
    Except Error (List NodeId) := do
  (← v.childrenBehind e key).flatMapM (v.seenNodes e key.1)

/-- Which nodes these are is read off the node of the element. -/
theorem nodesBehind_eq (hnode : f.node = e.node) : v.nodesBehind f = v.nodesBehind e := by
  funext key
  have hseen : v.seenNodes f key.1 = v.seenNodes e key.1 := by
    funext c
    cases c <;> simp only [seenNodes, relationNode, kind, hnode]
  simp only [nodesBehind, childrenBehind, fillingOne, fillingMany, filling, kind, hnode, hseen]

/-- A node as an element below another. -/
def placed (v : View) (e : Element) (i : NodeId) (entity : EntityId) : Element :=
  ⟨v.document.number, i, entity, e.placement :: e.above⟩

/-- A node with the entity of its kind, as an element below another. -/
def place (v : View) (e : Element) (i : NodeId) : Deriving Element := do
  return v.placed e i (← v.blueprint.entityId (← liftExcept (v.tree.kind i)))

theorem elementBelow_eq {i j : NodeId} (h : v.blueprint.elide v.tree i = .ok j) :
    v.elementBelow e i = v.place e j := by
  unfold elementBelow element place
  rw [h]
  rfl

/-- A child is kept as some node or not, and then only its entity has to be asked for. -/
theorem childElement_eq (e : Element) (relation : String) (c : Child) :
    Option.toList <$> v.childElement e relation c =
      (liftExcept (v.seenNodes e relation c) >>= fun js => js.mapM (v.place e)) := by
  unfold childElement seenNodes
  cases v.relationNode e relation c with
  | error err => rfl
  | ok i =>
      show Option.toList <$> (liftExcept (v.blueprint.kept? v.tree i) >>= _) =
        (liftExcept (v.blueprint.kept? v.tree i >>= _) >>= _)
      cases hkept : v.blueprint.kept? v.tree i with
      | error err => rfl
      | ok k =>
          cases k with
          | none => rfl
          | some j =>
              show Option.toList <$> (some <$> v.elementBelow e i) = [j].mapM (v.place e)
              rw [elementBelow_eq (Blueprint.elide_of_kept? hkept).1]
              simp

/-- A relation that is listed is followed by looking at its children, and asking for the entities of
those that are kept. -/
theorem related_eq {r : Relation} (hr : r ∈ s.relations e.entity) :
    v.related e r s = (liftExcept (v.childrenBehind e r.key) >>= fun cs =>
      cs.flatMapM fun c => Option.toList <$> v.childElement e r.name c) s := by
  have hlisted := Schema.mem_relations_iff.mp hr
  unfold related childrenBehind Relation.key
  by_cases hone : r.multiplicity.isSingle = true
  · have hrelation : v.relation s e r.name true = .ok r :=
      relation_eq_ok_iff.mpr ⟨hlisted, rfl, hone⟩
    have hget : v.child? e r.name s = (liftExcept (v.fillingOne e r.name) >>= fun o =>
        o.elim (pure none) (v.childElement e r.name)) s := by
      show EStateM.bind (liftExcept (v.relation s e r.name true)) _ s = _
      rw [hrelation]
      show EStateM.bind (liftExcept (v.fillingOne e r.name)) _ s = _
      cases v.fillingOne e r.name with
      | error err => rfl
      | ok o => cases o <;> rfl
    rw [if_pos hone, if_pos hone, run_map_congr hget]
    cases v.fillingOne e r.name with
    | error err => rfl
    | ok o =>
        cases o with
        | none => rfl
        | some c =>
            show _ = ([c].flatMapM fun c => Option.toList <$> v.childElement e r.name c) s
            simp
            rfl
  · have hrelation : v.relation s e r.name false = .ok r :=
      relation_eq_ok_iff.mpr ⟨hlisted, rfl, Bool.eq_false_iff.mpr hone⟩
    have hget : v.children e r.name s = (liftExcept (v.relation s e r.name false) >>= fun r =>
        liftExcept (v.fillingMany e r.name) >>= fun cs =>
          cs.filterMapM (v.childElement e r.name)) s := rfl
    rw [if_neg hone, if_neg hone, hget, hrelation]
    simp only [filterMapM_eq_flatMapM]
    rfl

theorem related_eq_ok_iff {r : Relation} (hr : r ∈ s.relations e.entity) :
    v.related e r s = .ok ds s' ↔
      ∃ js, v.nodesBehind e r.key = .ok js ∧ js.mapM (v.place e) s = .ok ds s' := by
  have hrow : ∀ cs : List Child,
      (cs.flatMapM fun c => Option.toList <$> v.childElement e r.name c) s = .ok ds s' ↔
        ∃ js, cs.flatMapM (v.seenNodes e r.name) = .ok js ∧
          js.mapM (v.place e) s = .ok ds s' := by
    intro cs
    have hstep : ∀ c ∈ cs, ∀ s₁, True → ∀ xs s₂,
        (Option.toList <$> v.childElement e r.name c) s₁ = .ok xs s₂ ↔
          ∃ js, v.seenNodes e r.name c = .ok js ∧ js.mapM (v.place e) s₁ = .ok xs s₂ := by
      intro c _ s₁ _ xs s₂
      rw [childElement_eq, run_lift_bind_eq_ok_iff]
    refine (flatMapM_eq_ok_iff id hstep (fun _ _ _ _ _ _ _ => trivial) trivial).trans ?_
    rw [List.map_id]
  rw [related_eq hr, run_lift_bind_eq_ok_iff]
  constructor
  · rintro ⟨cs, hcs, h⟩
    obtain ⟨js, hjs, h⟩ := (hrow cs).mp h
    exact ⟨js, bind_eq_ok_iff.mpr ⟨cs, hcs, hjs⟩, h⟩
  · rintro ⟨js, hjs, h⟩
    obtain ⟨cs, hcs, hjs⟩ := bind_eq_ok_iff.mp hjs
    exact ⟨cs, hcs, (hrow cs).mpr ⟨js, hjs, h⟩⟩

/-- All children of an element can be got if it can be said which nodes they are, and if then each
of these has an entity. -/
theorem allChildren_eq_ok_iff (hs : Finished v.blueprint s) (he : v.Stands s e) :
    v.allChildren e s = .ok ds s' ↔
      ∃ js, (s.relationKeys e.entity).flatMapM (v.nodesBehind e) = .ok js ∧
        js.mapM (v.place e) s = .ok ds s' := by
  obtain ⟨n, -, hid⟩ := he
  refine flatMapM_eq_ok_iff Relation.key (I := Evolves v.blueprint s) ?_ ?_ (.refl hs)
  · intro r hr s₁ hs₁ xs s₂
    have hsame : s₁.relations e.entity = s.relations e.entity := by
      have hfeatures := hs₁.extends_.features_eq hs.consistent hs₁.finished.consistent hid
      rw [Schema.relations, Schema.relations, hfeatures]
    exact related_eq_ok_iff (hsame ▸ hr)
  · intro r _ s₁ xs s₂ hs₁ hrun
    exact hs₁.trans ((issues_related e r s₁ hs₁.finished).of_ok hrun).1

/-! ### Asking for entities -/

theorem place_eq_ok_iff {i : NodeId} {d : Element} : v.place e i s = .ok d s' ↔
    ∃ n id, v.tree.node? i = some n ∧ v.blueprint.entityId n.kind s = .ok id s' ∧
      d = v.placed e i id := by
  unfold place
  rw [run_lift_bind_eq_ok_iff]
  constructor
  · rintro ⟨kind, hkind, h⟩
    obtain ⟨n, hn, rfl⟩ := map_eq_ok_iff.mp hkind
    obtain ⟨id, s₁, hid, h⟩ := run_bind_eq_ok_iff.mp h
    cases h
    exact ⟨n, id, Tree.node_eq_ok_iff.mp hn, hid, rfl⟩
  · rintro ⟨n, id, hn, hid, rfl⟩
    exact ⟨n.kind, Tree.kind_eq_ok hn, run_bind_eq_ok_iff.mpr ⟨id, s', hid, rfl⟩⟩

/-- The nodes of a row become elements that stand for them. -/
theorem stands_of_mapM_place (hs : Finished v.blueprint s) (h : js.mapM (v.place e) s = .ok ds s') :
    Evolves v.blueprint s s' ∧ ds.map Element.node = js ∧ ∀ d ∈ ds, v.Stands s' d := by
  induction js generalizing s ds with
  | nil =>
      cases h
      exact ⟨.refl hs, rfl, by simp⟩
  | cons j js ih =>
      obtain ⟨d, s₁, ds, hd, hds, rfl⟩ := run_mapM_cons_eq_ok_iff.mp h
      obtain ⟨n, id, hn, hid, rfl⟩ := place_eq_ok_iff.mp hd
      obtain ⟨hs₁, hextends, hthere⟩ := (hs.ends_entityId n.kind).of_ok hid
      obtain ⟨hevolves, hnodes, hstands⟩ := ih hs₁ hds
      refine ⟨.trans ⟨hs₁, hextends⟩ hevolves, by rw [List.map_cons, hnodes]; rfl, ?_⟩
      exact List.forall_mem_cons.mpr ⟨⟨n, hn, hevolves.extends_.idOf? hthere⟩, hstands⟩

/-- Once the elements are there, asking for them again gives them again. -/
theorem mapM_place_again (hs : Finished v.blueprint s) (h : js.mapM (v.place e) s = .ok ds s')
    (hlater : Evolves v.blueprint s' t) : js.mapM (v.place e) t = .ok ds t := by
  induction js generalizing s ds with
  | nil =>
      cases h
      rfl
  | cons j js ih =>
      obtain ⟨d, s₁, ds, hd, hds, rfl⟩ := run_mapM_cons_eq_ok_iff.mp h
      obtain ⟨n, id, hn, hid, rfl⟩ := place_eq_ok_iff.mp hd
      obtain ⟨hs₁, -, hthere⟩ := (hs.ends_entityId n.kind).of_ok hid
      have hthere' : t.idOf? n.kind = some id :=
        hlater.extends_.idOf? ((stands_of_mapM_place hs₁ hds).1.extends_.idOf? hthere)
      have hagain := hlater.finished.entityId_eq_ok hthere'
      exact run_mapM_cons_eq_ok_iff.mpr
        ⟨_, t, ds, place_eq_ok_iff.mpr ⟨n, id, hn, hagain, rfl⟩, ih hs₁ hds, rfl⟩

/-- What could be asked for can be asked for as well if more kinds have entities. -/
theorem mapM_place_of_subset (hs : Finished v.blueprint s) (ht : Finished v.blueprint t)
    (hsub : s.kinds ⊆ t.kinds) (h : js.mapM (v.place e) s = .ok ds s') :
    ∃ fs t', js.mapM (v.place f) t = .ok fs t' ∧ s'.kinds ⊆ t'.kinds := by
  induction js generalizing s t ds with
  | nil =>
      cases h
      exact ⟨[], t, rfl, hsub⟩
  | cons j js ih =>
      obtain ⟨d, s₁, ds, hd, hds, rfl⟩ := run_mapM_cons_eq_ok_iff.mp h
      obtain ⟨n, id, hn, hid, rfl⟩ := place_eq_ok_iff.mp hd
      obtain ⟨id', t₁, hid', hsub₁⟩ := hs.entityId_of_subset ht hsub hid
      have hs₁ := ((hs.ends_entityId n.kind).of_ok hid).1
      have ht₁ := ((ht.ends_entityId n.kind).of_ok hid').1
      obtain ⟨fs, t', hfs, hsub'⟩ := ih hs₁ ht₁ hsub₁ hds
      refine ⟨v.placed f j id' :: fs, t', run_mapM_cons_eq_ok_iff.mpr ?_, hsub'⟩
      exact ⟨_, t₁, fs, place_eq_ok_iff.mpr ⟨n, id', hn, hid', rfl⟩, hfs, rfl⟩

/-! ### Asking for all children -/

/-- The children that were got stand for nodes. -/
theorem stands_of_allChildren (hs : Finished v.blueprint s) (he : v.Stands s e)
    (h : v.allChildren e s = .ok ds s') :
    Evolves v.blueprint s s' ∧ ∀ d ∈ ds, v.Stands s' d := by
  obtain ⟨js, -, hrun⟩ := (allChildren_eq_ok_iff hs he).mp h
  obtain ⟨hevolves, -, hstands⟩ := stands_of_mapM_place hs hrun
  exact ⟨hevolves, hstands⟩

/-- **Children that were got once are got again**, at any later time, and then the schema stays. -/
theorem allChildren_again (hs : Finished v.blueprint s) (he : v.Stands s e)
    (h : v.allChildren e s = .ok ds s') (hlater : Evolves v.blueprint s' t) :
    v.allChildren e t = .ok ds t := by
  obtain ⟨js, hjs, hrun⟩ := (allChildren_eq_ok_iff hs he).mp h
  have hevolves := (stands_of_mapM_place hs hrun).1.trans hlater
  refine (allChildren_eq_ok_iff hlater.finished (he.later hevolves.extends_)).mpr ⟨js, ?_, ?_⟩
  · obtain ⟨n, -, hid⟩ := he
    rw [hs.relationKeys_eq hlater.finished hid (hevolves.extends_.idOf? hid)]
    exact hjs
  · exact mapM_place_again hs hrun hlater

/-- Which nodes the children of an element are does not depend on the schema. -/
theorem flatMapM_nodesBehind_eq (hs : Finished v.blueprint s) (ht : Finished v.blueprint t)
    (he : v.Stands s e) (hf : v.Stands t f) (hnode : f.node = e.node) :
    (t.relationKeys f.entity).flatMapM (v.nodesBehind f) =
      (s.relationKeys e.entity).flatMapM (v.nodesBehind e) := by
  obtain ⟨n, hn, hid⟩ := he
  obtain ⟨m, hm, hid'⟩ := hf
  obtain rfl : m = n := Option.some.inj (hm.symm.trans (hnode ▸ hn))
  rw [hs.relationKeys_eq ht hid hid', nodesBehind_eq hnode]

/-- Children that are got in two schemas are the same nodes. -/
theorem map_node_allChildren_eq (hs : Finished v.blueprint s) (ht : Finished v.blueprint t)
    (he : v.Stands s e) (hf : v.Stands t f) (hnode : f.node = e.node) {fs : List Element}
    {t' : Schema} (h : v.allChildren e s = .ok ds s') (h' : v.allChildren f t = .ok fs t') :
    fs.map Element.node = ds.map Element.node := by
  obtain ⟨js, hjs, hrun⟩ := (allChildren_eq_ok_iff hs he).mp h
  obtain ⟨ks, hks, hrun'⟩ := (allChildren_eq_ok_iff ht hf).mp h'
  rw [flatMapM_nodesBehind_eq hs ht he hf hnode, hjs] at hks
  cases hks
  rw [(stands_of_mapM_place hs hrun).2.1, (stands_of_mapM_place ht hrun').2.1]

/-- **Children that can be got in one schema can be got in another** in which more kinds have
entities. -/
theorem allChildren_of_subset (hs : Finished v.blueprint s) (ht : Finished v.blueprint t)
    (hsub : s.kinds ⊆ t.kinds) (he : v.Stands s e) (hf : v.Stands t f) (hnode : f.node = e.node)
    (h : v.allChildren e s = .ok ds s') :
    ∃ fs t', v.allChildren f t = .ok fs t' ∧ s'.kinds ⊆ t'.kinds := by
  obtain ⟨js, hjs, hrun⟩ := (allChildren_eq_ok_iff hs he).mp h
  obtain ⟨fs, t', hrun', hsub'⟩ := mapM_place_of_subset hs ht hsub hrun (f := f)
  refine ⟨fs, t', (allChildren_eq_ok_iff ht hf).mpr ⟨js, ?_, hrun'⟩, hsub'⟩
  rw [flatMapM_nodesBehind_eq hs ht he hf hnode]
  exact hjs

end View

end TreeSchema
