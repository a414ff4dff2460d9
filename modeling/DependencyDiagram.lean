import DependencyDiagram.Paths
import DependencyDiagram.Job
import DependencyDiagram.Walk
import DependencyDiagram.Expansion
import DependencyDiagram.Layout
import DependencyDiagram.Rows
import DependencyDiagram.Related
import DependencyDiagram.Graph
import DependencyDiagram.Locality
import DependencyDiagram.Generations
import DependencyDiagram.Preorder
import DependencyDiagram.Centring
import DependencyDiagram.Connections
import DependencyDiagram.Drawing
import DependencyDiagram.Fetch
import DependencyDiagram.Component
import DependencyDiagram.Statistics
