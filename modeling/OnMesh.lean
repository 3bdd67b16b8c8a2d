import OnMesh.Exchange
import OnMesh.Proofs.AddressBook.Reconciliation
import OnMesh.Proofs.Certification.Outage
import OnMesh.Proofs.ContextPool.Loans
import OnMesh.Proofs.Prefix
import OnMesh.Proofs.Flooding.Law
import OnMesh.Proofs.Flooding.Pushes
import OnMesh.Proofs.Graph.Shortest
import OnMesh.Proofs.Host
import OnMesh.Proofs.Mesh.Acquaintance
import OnMesh.Proofs.Mesh.Conveyance
import OnMesh.Proofs.Mesh.Owners
import OnMesh.Proofs.Mesh.Reach
import OnMesh.Proofs.Mesh.Refusals
import OnMesh.Proofs.Network
import OnMesh.Proofs.Node.Accounts
import OnMesh.Proofs.Node.Batches
import OnMesh.Proofs.Node.Ledger
import OnMesh.Proofs.Node.Legible
import OnMesh.Proofs.Node.Oblivion
import OnMesh.Proofs.Node.Receipts
import OnMesh.Proofs.Node.Sovereignty
import OnMesh.Proofs.Node.Turns
import OnMesh.Proofs.Renewal
import OnMesh.Proofs.Replica.Duplicates
import OnMesh.Proofs.Replica.Edits
import OnMesh.Proofs.Replica.Followers
import OnMesh.Proofs.Wire.Canonical
import OnMesh.Proofs.Wire.Script
